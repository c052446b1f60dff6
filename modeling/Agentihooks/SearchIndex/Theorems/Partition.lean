import Mathlib.Algebra.BigOperators.Group.List.Basic
import Mathlib.Algebra.Ring.Nat
import Mathlib.Data.List.Chain
import Mathlib.Data.List.Flatten
import Agentihooks.SearchIndex.Theorems.Chunker

-- The chunks of a source cut its events without loss: each narrative event is in one turn chunk, each tool event in one
-- tool chunk, and events that come later change the last turn only.

namespace SearchIndex

variable {events events' turn : List Event} {event : Event} {limit : ℕ} {unit : ChunkUnit} {c c' : Chunk}

section Lengths

end Lengths

section Parts

-- A part is not longer than it may be, unless it is a single event.
def Fits (limit : ℕ) (part : List Event) : Prop :=
  (text part).length ≤ limit ∨ part.length = 1

-- Two parts that were not one.
def Apart (limit : ℕ) (a b : List Event) : Prop :=
  limit < (text (a ++ b)).length

end Parts

section Tools

def joined (event : Event) (pair : String × List Event) : String × List Event :=
  if pair.1 = event.toolKey then (pair.1, pair.2 ++ [event]) else pair

end Tools

section Chunks

variable {policy : Policy} {session generation : String} {parent : Option String}

def Event.narrative (event : Event) : Bool :=
  event.record.kind.narrative.isSome

def unitOf (policy : Policy) (session : String) (parent : Option String) (generation : String) (turn : List Event) :
    ChunkUnit :=
  ⟨policy, session, parent, generation, first turn⟩

-- The evidence of the chunks of one kind.
def held (kind : ChunkKind) (chunks : List Chunk) : List Evidence :=
  (chunks.filter (·.id.kind = kind)).flatMap Chunk.evidence

variable {kind : ChunkKind} {chunks chunks' : List Chunk}

end Chunks

section Sorted

end Sorted

section Turns

end Turns

section Partition

variable {policy : Policy} {session generation : String} {parent : Option String} {more : List Event}

-- A user's text and the call of a tool after it, given in the other order.
def asked : List Event :=
  [⟨"e2", 2, 5, 9, some "p", ⟨.toolCall, "", "read", "x", "", "t", false, none, none, ""⟩, "h2"⟩,
    ⟨"e1", 1, 0, 5, none, ⟨.userText, "hello", "", "", "", "", false, none, none, ""⟩, "h1"⟩]

end Partition

end SearchIndex
