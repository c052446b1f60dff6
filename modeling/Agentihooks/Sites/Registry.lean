import Mathlib.Data.Finset.Basic
import Mathlib.Data.Finset.Lattice.Fold
import Mathlib.Logic.Function.Basic

-- The steps of a pass and the order in which they run: waves, the pass graph and the edges between its sites.

namespace Sites

structure Step where
  name  : String
  group : String
  lane  : String
  needs : Finset String
  deriving DecidableEq

def names (steps : List Step) : Finset String :=
  (steps.map Step.name).toFinset

def slowLane : String :=
  "slow"

-- The waves of the steps that are left, one for each turn of the loop.
def wavesFrom : ℕ → List Step → Finset String → Option (List (List Step))
  | 0, _, _                      => some []
  | turns + 1, pending, completed =>
    if pending = [] then some []
    else
      let ready := pending.filter fun step => step.needs ⊆ completed
      if ready = [] then none
      else
        let completed := completed ∪ names ready
        (wavesFrom turns (pending.filter fun step => step.name ∉ completed) completed).map (ready :: ·)

-- `_dependency_waves`: nothing where it refuses the steps.
def waves (steps : List Step) : Option (List (List Step)) :=
  if ¬ (steps.map Step.name).Nodup then none
  else if ∃ step ∈ steps, ¬ step.needs ⊆ names steps then none
  else wavesFrom steps.length steps ∅

-- The first step that is ready is placed, at each turn of the loop.
def orderedFrom (among : Finset String) : ℕ → List Step → Finset String → Option (List Step)
  | 0, _, _                  => some []
  | turns + 1, pending, done =>
    match pending.find? fun step => step.needs ∩ among ⊆ done with
    | some ready => (orderedFrom among turns (pending.erase ready) (insert ready.name done)).map (ready :: ·)
    | none       => none

def ordered (steps : List Step) : Option (List Step) :=
  orderedFrom (names steps) steps.length steps ∅

-- The index of a site: of the last one, if there are several of the name.
def indexOf (sites : List String) (site : String) : Option ℕ :=
  (sites.zipIdx.reverse.find? fun entry => entry.1 = site).map Prod.snd

section Edges

variable (steps : List Step) (sites : List String)

-- The index of the site of a step that is given by its name.
def siteAt (name : String) : Option ℕ :=
  (steps.reverse.find? fun step => step.name = name ∧ (indexOf sites step.group).isSome).bind fun step =>
    indexOf sites step.group

-- A need of a step of a site on a step of a later one.
def later (name need : String) : Bool :=
  match siteAt steps sites name, siteAt steps sites need with
  | some index, some needed => index < needed
  | _, _                    => false

-- `_backward`
def backward : List Step :=
  steps.map fun step => { step with needs := step.needs.filter fun need => ¬ later steps sites step.name need }

-- `_late`
def late : Option (Finset String) :=
  (ordered steps).map fun placed => placed.foldl (fun late step =>
    if step.lane = slowLane ∨ (step.needs ∩ late).Nonempty then insert step.name late else late) ∅

-- The steps of a site that later sites wait for.
def members (late : Finset String) (site : String) : List Step :=
  steps.filter fun step => step.group = site ∧ step.name ∉ late

end Edges

-- The barriers of the sites so far, the steps that are held for a joined site, and those of the site before.
structure Walk where
  barrier  : String → List Step
  held     : String → List Step
  previous : List Step

-- A turn of the loop over the sites.
def Walk.visit (members : String → List Step) (joins : String → Option String) (w : Walk) (site : String) : Walk :=
  let barrier := Function.update w.barrier site (w.previous ++ w.held site)
  let held    := Function.update w.held site []
  match joins site with
  | some joined => ⟨barrier, Function.update held joined (held joined ++ members site), w.previous⟩
  | none        => ⟨barrier, held, if members site = [] then w.previous else members site⟩

def barriers (members : String → List Step) (joins : String → Option String) (sites : List String) : Walk :=
  sites.foldl (Walk.visit members joins) ⟨fun _ => [], fun _ => [], []⟩

-- Where it finds a cycle there is nothing.
def siteEdges (steps : List Step) (sites : List String) (joins : String → Option String) : Option (List Step) :=
  let found := backward steps sites
  (late found).map fun late =>
    let barrier := (barriers (members found late) joins sites).barrier
    found.map fun step => { step with needs := step.needs ∪ names (barrier step.group) }

end Sites
