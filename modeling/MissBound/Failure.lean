import MissBound.Numeral
import MissBound.Platform.Policy

/-!
Everything that can go wrong, with the wording of each cause in one place.
-/

namespace MissBound

/-- The causes for which a program, a platform or a fixed point is refused. -/
inductive Failure where
  /-- An edge names a node outside a graph of `nodes` nodes. -/
  | danglingEdge (source target nodes : Nat)
  | noBlocks
  | entryOutside (entry blocks : Nat)
  /-- A loop bound names a block that heads no loop. -/
  | boundWithoutLoop (block : Nat)
  /-- A temporary register is given an initial value. -/
  | temporaryPreset (register : String)
  /-- A memory bank is empty or runs past the end of the address space. -/
  | bankSize (bank : String) (base size : Nat)
  | bankOverlap (bank other : String)
  | associativity (ways : Nat)
  /-- Offset and set bits fill the whole address. -/
  | noTag (blockBits setBits : Nat)
  | missingDataCache
  | unifiedCache
  | unsupportedPolicy (policy : Policy)
  /-- An access lies outside every memory bank. -/
  | unmapped (address instruction : Nat)
  /-- A fixed point needs more than `limit` block visits. -/
  | visitLimit (limit : Nat)
  deriving DecidableEq

def Failure.message : Failure → String
  | danglingEdge source target nodes =>
    s!"edge n{source} -> n{target} references a node outside the graph ({nodes} nodes)"
  | noBlocks => "control flow graph has no blocks"
  | entryOutside entry blocks => s!"entry n{entry} is outside the graph ({blocks} blocks)"
  | boundWithoutLoop block => s!"loop bound given for block n{block} which heads no loop"
  | temporaryPreset register => s!"initial value given for temporary {register}"
  | bankSize bank base size =>
    "bank " ++ bank ++ " at " ++ hexAddress base ++ " has invalid size " ++ hex size
  | bankOverlap bank other => s!"bank {bank} overlaps bank {other}"
  | associativity ways => s!"Invalid cache geometry - associativity {ways} outside 1..=255"
  | noTag blockBits setBits =>
    s!"Invalid cache geometry - {blockBits} offset bits and {setBits} set bits leave no tag"
  | missingDataCache => "No data cache is configured"
  | unifiedCache => "Unified instruction/data caches are not supported"
  | unsupportedPolicy policy =>
    "Replacement policy " ++ policy.name ++ " is not supported, only LRU caches can be analysed"
  | unmapped address instruction =>
    "Access at " ++ hexAddress instruction ++ " targets unmapped address " ++ hexAddress address
  | visitLimit limit => s!"Reached the maximum number of fixed-point visits allowed - {limit}"

end MissBound
