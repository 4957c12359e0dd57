/-!
Replacement policies of set-associative caches.
-/

namespace MissBound

/-- How a full cache set picks the line to evict. -/
inductive Policy where
  /-- Least recently used. -/
  | lru
  /-- First in, first out. -/
  | fifo
  /-- Tree-based pseudo-LRU. -/
  | plru
  /-- Random replacement. -/
  | random
  deriving DecidableEq

namespace Policy

def all : List Policy := [lru, fifo, plru, random]

def name : Policy → String
  | lru => "LRU"
  | fifo => "FIFO"
  | plru => "PLRU"
  | random => "RANDOM"

def ofName? (s : String) : Option Policy :=
  all.find? (·.name == s)

end Policy

end MissBound
