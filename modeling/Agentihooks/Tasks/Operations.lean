import Agentihooks.Library.Run
import Agentihooks.Tasks.Update

-- The operations that change a task's claim: its update, the delivery of its outcome, and the review of a phase that
-- sends the phase's plan back.

namespace Tasks

structure ReviewOp where
  phase     : String
  by_       : String
  state     : ReviewState
  rounds    : Option ℕ
  note      : Option String
  escalated : Option Bool
  override_ : Option Json

def roundCap : ℕ :=
  3

def reviewRecord (phase : Phase) (op : ReviewOp) (at_ : ℤ) : Review :=
  let rounds    := phase.review.elim 0 Review.rounds
  let notes     := phase.review.elim [] Review.notes
  let escalated := (phase.review.bind Review.escalated).getD false
  let note      := op.note.getD ""
  match op.state with
  | .sentBack =>
    ⟨op.state, op.by_, at_, rounds + 1, note, notes ++ [note], some (!escalated && roundCap ≤ rounds + 1), op.override_⟩
  | _         => ⟨op.state, op.by_, at_, op.rounds.getD rounds, note, notes, op.escalated, op.override_⟩

-- The plan task that a review of its phase opens again.
def reopened (doc : Document) (phase : String) (review : Review) : Option Task :=
  if review.state ≠ .sentBack ∨ review.escalated = some true then none
  else
    (doc.tasks.find? fun t => t.fields .phase = some phase ∧ t.fields .kind = some .plan).filter
      (·.fields .state ≠ some .open_)

def reopen (t : Fields) : Fields :=
  ((t.put .state .open_).put .claimedBy "").put .done false

def State.resolve (s : State) (phase : String) : State :=
  { s with doc := { s.doc with priorities := s.doc.priorities.filter (· ≠ s!"phases/{phase}") } }

def decided (s : State) (mark : ℤ × ℕ) (phase : String) (review : Review) (by_ : String) : State :=
  if review.state = .pending then s
  else
    match reopened s.doc phase review with
    | none      => s.resolve phase
    | some plan =>
      let s := s.resolve phase
      { s with doc := s.doc.modify plan.id reopen }.stamp (.task plan.id .state) ⟨mark.1, mark.2, by_⟩

-- `phase_review`. What is checked of a phase besides its review is as it was when the document was stored.
def review (s : State) (mark : ℤ × ℕ) (op : ReviewOp) : Result :=
  match s.doc.phase op.phase with
  | none       => .ok (false, s)
  | some phase =>
    let record := reviewRecord phase op mark.1
    let phases := s.doc.phases.map fun p => if p.id = op.phase then { p with review := some record } else p
    let after  := { s with doc := { s.doc with phases } }
    let after  :=
      if phase.review = some record then after else after.stamp (.review op.phase) ⟨mark.1, mark.2, op.by_⟩
    .ok (true, decided after mark op.phase record op.by_)

def Proposal.fields (p : Proposal) : Fields :=
  ((Fields.put .empty .state .done).put .prUrl p.prUrl).put .proof p.proof

def Outcome.receipt (o : Outcome) (mergeSha : String) : Receipt where
  operationId := o.operationId
  digest      := ⟨o.providerId, o.proposal.taskId, o.proposal.prUrl, o.proposal.headSha, o.proposal.proof, mergeSha⟩

-- `op` is the task update that the delivery makes, if it is one.
def completeOutcome (ports : Ports) (s : State) (mark : ℤ × ℕ) (op : Option UpdateOp) (o : Outcome) (actor : String) :
    Result :=
  match o.mergeSha with
  | none     => .error (.keyError "merge_sha")
  | some sha =>
    match s.doc.task o.proposal.taskId, op with
    | some task, some op =>
      if op.task ≠ o.proposal.taskId ∨ op.by_ ≠ actor ∨ op.fields ≠ o.proposal.fields then
        s.reject "outcome identity conflict"
      else
        match s.outcomes o.proposal.taskId with
        | some known =>
          if known = o.receipt sha ∧ task.fields .state = some .done ∧ task.fields .prUrl = some o.proposal.prUrl then
            .ok (true, s)
          else s.reject "outcome receipt conflict"
        | none =>
          if task ≠ o.proposal.taskRevision ∨ task.fields .claimedBy ≠ some actor ∨
              task.fields .prUrl ≠ some o.proposal.prUrl ∨ o.phase ≠ .externallyVerified ∨ sha = "" then
            s.reject "outcome revision or ownership conflict"
          else
            match update ports s mark op.toRequest with
            | .ok (true, s) =>
              .ok (true, { s with outcomes := Function.update s.outcomes o.proposal.taskId (some (o.receipt sha)) })
            | refused       => refused
    | _, _ => s.reject "outcome identity conflict"

inductive Operation
  | update (op : UpdateOp)
  | complete (op : Option UpdateOp) (outcome : Outcome) (actor : String)
  | review (op : ReviewOp)

-- An operation with the time and the revision of the mutation it is in.
structure Event where
  operation : Operation
  mark      : ℤ × ℕ

def perform (ports : Ports) (s : State) (e : Event) : Result :=
  match e.operation with
  | .update op                 => apply ports s e.mark op
  | .complete op outcome actor => completeOutcome ports s e.mark op outcome actor
  | .review op                 => review s e.mark op

def step (ports : Ports) (s : State) (e : Event) : State :=
  match perform ports s e with
  | .ok (_, s) => s
  | .error _   => s

def Accepted (ports : Ports) (s : State) (e : Event) : Prop :=
  (perform ports s e).toOption.map Prod.fst = some true

instance (ports : Ports) (s : State) (e : Event) : Decidable (Accepted ports s e) :=
  inferInstanceAs (Decidable (_ = _))

end Tasks
