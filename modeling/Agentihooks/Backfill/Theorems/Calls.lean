import Agentihooks.Backfill.Theorems.Sessions

-- The calls of a backfill come to an end, and with what a single call would have come to.

namespace Backfill

open Ingest (Catalog Sound Counted)
open Ingest.Catalog (Provenanced)

section Ideal

variable {run : Run} {a : Stores} {items : List Item} {k k' p : ℕ} {s s' : State}

-- The stores after the first sessions.
def ideal (run : Run) (a : Stores) (items : List Item) (k : ℕ) : Stores :=
  Run.run (settle run) a (items.take k)

theorem ideal_succ {item : Item} (h : items[k]? = some item) :
    ideal run a items (k + 1) = settle run (ideal run a items k) item := by
  rw [ideal, List.take_add_one, h, Option.toList_some, Run.run_concat, ideal]

theorem ideal_all (h : items.length ≤ k) : ideal run a items k = Run.run (settle run) a items := by
  rw [ideal, List.take_of_length_le h]

theorem sound_ideal (hs : Sound a.catalog) : Sound (ideal run a items k).catalog :=
  Run.invariant (I := fun a : Stores => Sound a.catalog) (fun _ _ h => sound_settle h) hs

theorem provenanced_ideal (hp : Provenanced a.catalog) : Provenanced (ideal run a items k).catalog :=
  Run.invariant (I := fun a : Stores => Provenanced a.catalog) (fun _ _ h => provenanced_settle h) hp

theorem absorbed_ideal (hs : Sound a.catalog) (hp : Provenanced a.catalog) {item : Item} (h : items[p]? = some item)
    (hpk : p < k) : Absorbed run item (ideal run a items k) := by
  induction k
  case zero      => omega
  case succ k hi =>
    cases hk : items[k]? with
    | none =>
      have hlen := List.getElem?_eq_none_iff.mp hk
      obtain ⟨hp, -⟩ := List.getElem?_eq_some_iff.mp h
      rw [ideal_all (by omega), ← ideal_all hlen]
      exact hi (by omega)
    | some other =>
      rw [ideal_succ hk]
      by_cases he : p = k
      case pos =>
        subst he
        obtain rfl := Option.some.inj (h.symm.trans hk)
        exact absorbed_settle (sound_ideal hs) (provenanced_ideal hp)
      case neg => exact (hi (by omega)).settle (sound_ideal hs)

-- A state in which the first sessions are handled, and the next one maybe begun.
structure At (run : Run) (a : Stores) (items : List Item) (k : ℕ) (s : State) : Prop where
  le      : k ≤ items.length
  between : Between (ideal run a items k) (ideal run a items (k + 1)) s

theorem Reaches.at (hk : k ≤ items.length) (h : Reaches (ideal run a items k) s) : At run a items k s where
  le      := hk
  between := by
    refine ⟨.inl h.catalog, h.sessions, by rw [h.quarantine], ?_⟩
    rw [h.quarantine]
    cases hi : items[k]? with
    | none      =>
      have hlen := List.getElem?_eq_none_iff.mp hi
      rw [ideal_all hlen, ideal_all (by omega)]
    | some item =>
      rw [ideal_succ hi]
      exact Finset.subset_union_left.trans settle_quarantine

-- All of the sessions are handled.
theorem At.reaches (h : At run a items items.length s) : Reaches (Run.run (settle run) a items) s := by
  have hb := h.between
  rw [ideal_all le_rfl, ideal_all (by omega)] at hb
  exact ⟨or_self_iff.mp hb.catalog, hb.sessions, Finset.Subset.antisymm hb.upper hb.lower⟩

-- A step that has handled sessions up to `k'`, and has not moved the checkpoint.
structure Moves (run : Run) (a : Stores) (items : List Item) (k k' : ℕ) (s s' : State) : Prop where
  le    : k ≤ k'
  at'   : At run a items k' s'
  runs  : s'.ledger.runs = s.ledger.runs
  lucks : s.lucks = [] → s'.lucks = []

theorem Moves.trans {k'' : ℕ} {s'' : State} (h : Moves run a items k k' s s') (h' : Moves run a items k' k'' s' s'') :
    Moves run a items k k'' s s'' where
  le    := h.le.trans h'.le
  at'   := h'.at'
  runs  := h'.runs.trans h.runs
  lucks := fun hn => h'.lucks (h.lucks hn)

-- What comes of a session up to which all were handled: it is handled too, or the call ends.
inductive Handles (run : Run) (a : Stores) (items : List Item) (k p : ℕ) (s : State) : Step Handled → Prop
  | done (x : Handled) (s' : State) (k' : ℕ) (hp : p < k') (h : Moves run a items k k' s s') :
    Handles run a items k p s (.done x s')
  | halt (halt : Halt) (s' : State) (hh : ∀ refusal, halt ≠ .rejected refusal) (h : Moves run a items k k s s')
    (hl : s.lucks ≠ []) : Handles run a items k p s (.halt halt s')

theorem session_handles (hs : Sound a.catalog) (hp : Provenanced a.catalog) {item : Item} (hi : items[p]? = some item)
    (hpk : p ≤ k) (h : At run a items k s) : Handles run a items k p s (session run item s) := by
  obtain ⟨hlen, -⟩ := List.getElem?_eq_some_iff.mp hi
  by_cases he : p = k
  case pos =>
    subst he
    have hb := h.between
    rw [ideal_succ hi] at hb
    have hends := session_between (sound_ideal hs) (provenanced_ideal hp) hb
    generalize session run item s = step at hends
    rw [← ideal_succ hi] at hends
    cases hends with
    | done x s' h hr hl         => exact .done x s' (p + 1) (by omega) ⟨by omega, h.at (by omega), hr, hl⟩
    | halt halt s' hh hb hr hl  => exact .halt halt s' hh ⟨le_rfl, ⟨h.le, hb⟩, hr, fun hn => absurd hn hl⟩ hl
  case neg =>
    have habsorbed : Absorbed run item s.stores := by
      refine h.between.absorbed (fun source reason hr => ?_) (absorbed_ideal hs hp hi (by omega))
      cases hk : items[k]? with
      | some other =>
        rw [ideal_succ hk]
        exact hr.settle (sound_ideal hs)
      | none       =>
        have hlen := List.getElem?_eq_none_iff.mp hk
        rwa [ideal_all (show items.length ≤ k + 1 by omega), ← ideal_all hlen]
    have hidle := session_absorbed (h.between.sound (sound_ideal hs) (sound_ideal hs))
      (h.between.provenanced (provenanced_ideal hp) (provenanced_ideal hp)) habsorbed
    obtain ⟨x, l, hd, hl⟩ | ⟨halt, l, hd, hh, hl⟩ := hidle
    · rw [hd]
      exact .done x _ k (by omega)
        ⟨le_rfl, ⟨h.le, h.between.catalog, h.between.sessions, h.between.lower, h.between.upper⟩, rfl, hl⟩
    · rw [hd]
      exact .halt halt _ hh
        ⟨le_rfl, ⟨h.le, h.between.catalog, h.between.sessions, h.between.lower, h.between.upper⟩, rfl, fun hn => absurd hn hl⟩ hl

end Ideal

section Batches

variable {run : Run} {a : Stores} {items batch : List Item} {limit : Option ℤ} {handled : Sessions} {k p index size : ℕ}
  {s : State}

-- How a batch ends: behind its last session, at the limit, or at an outage or a crash.
inductive Batched (run : Run) (a : Stores) (items : List Item) (limit : Option ℤ) (k p m : ℕ) (handled : Sessions)
    (s : State) : Step (Option Progress × Sessions) → Prop
  | through (handled' : Sessions) (s' : State) (k' : ℕ) (hk : p + m ≤ k')
    (hn : ∀ n, limit = some n → m = 0 ∨ handled.length + m ≤ n) (h : Moves run a items k k' s s') :
    Batched run a items limit k p m handled s (.done (none, handled') s')
  | limited (handled' : Sessions) (s' : State) (k' : ℕ) (hn : ∃ n, limit = some n ∧ n < handled.length + m)
    (h : Moves run a items k k' s s') : Batched run a items limit k p m handled s (.done (some .partly, handled') s')
  | interrupted (handled' : Sessions) (s' : State) (k' : ℕ) (h : Moves run a items k k' s s') (hl : s.lucks ≠ []) :
    Batched run a items limit k p m handled s (.done (some .interrupted, handled') s')
  | halt (halt : Halt) (s' : State) (k' : ℕ) (hh : ∀ refusal, halt ≠ .rejected refusal) (h : Moves run a items k k' s s')
    (hl : s.lucks ≠ []) : Batched run a items limit k p m handled s (.halt halt s')

theorem handleBatch_batched (limit : Option ℤ) (handled : Sessions) (hs : Sound a.catalog) (hp : Provenanced a.catalog) (hb : batch <+: items.drop p) (hpk : p ≤ k)
    (h : At run a items k s) :
    Batched run a items limit k p batch.length handled s (handleBatch run limit batch handled s) := by
  induction batch generalizing p k handled s
  case nil => exact .through handled s k (by simpa using hpk) (fun _ _ => .inl rfl) ⟨le_rfl, h, rfl, id⟩
  case cons item batch hi =>
    obtain ⟨rest, hrest⟩ := hb
    have hlen : p < items.length := by
      by_contra hn
      rw [List.drop_of_length_le (by omega)] at hrest
      cases hrest
    rw [List.drop_eq_getElem_cons hlen] at hrest
    obtain ⟨hitem, hrest⟩ := List.cons.inj hrest
    have hitem : items[p]? = some item := by rw [List.getElem?_eq_getElem hlen, hitem]
    rw [handleBatch]
    split
    case isTrue hn =>
      obtain ⟨n, hm, hn⟩ := Option.any_eq_true _ _ |>.mp hn
      have hn : n ≤ handled.length := of_decide_eq_true hn
      exact .limited handled s k ⟨n, hm, by simp; omega⟩ ⟨le_rfl, h, rfl, id⟩
    case isFalse hlimit =>
      have hhandles := session_handles hs hp hitem hpk h
      generalize session run item s = step at hhandles
      cases hhandles with
      | halt halt s' hh h hl  =>
        cases halt with
        | crashed          => exact .halt _ s' k hh h hl
        | rejected refusal => exact absurd rfl (hh refusal)
        | unavailable      => exact .interrupted handled s' k h hl
      | done x s' k' hpk' h =>
        have hbatch := hi (p := p + 1) (k := k') (s := s') (handled ++ [(item.sessionUid, x)])
          ⟨rest, hrest⟩ (by omega) h.at'
        simp only
        generalize handleBatch run limit batch _ s' = step at hbatch
        cases hbatch with
        | through handled' s'' k'' hk hn h'   =>
          refine .through handled' s'' k'' (by simp; omega) (fun n hm => .inr ?_) (h.trans h')
          have hlt : ¬ n ≤ handled.length := by simpa [hm] using hlimit
          have hn := hn n hm
          simp only [List.length_append, List.length_cons, List.length_nil] at hn ⊢
          omega
        | limited handled' s'' k'' hn h'      =>
          obtain ⟨n, hm, hn⟩ := hn
          exact .limited handled' s'' k'' ⟨n, hm, by simp at hn ⊢; omega⟩ (h.trans h')
        | interrupted handled' s'' k'' h' hl  => exact .interrupted handled' s'' k'' (h.trans h') fun hn => hl (h.lucks hn)
        | halt halt s'' k'' hh h' hl          => exact .halt halt s'' k'' hh (h.trans h') fun hn => hl (h.lucks hn)

-- The tables of the runs before this one.
abbrev Runs := Dict String (PlanDigest × ℕ)

variable {runs : Runs} {digest : PlanDigest} {batches : List (List Item)}

-- A state with the checkpoint at a batch: the sessions before it are handled.
structure Stands (run : Run) (a : Stores) (items : List Item) (size : ℕ) (runs : Runs) (digest : PlanDigest)
    (index k : ℕ) (s : State) : Prop where
  at'     : At run a items k s
  runs    : s.ledger.runs = runs.insert run.runId (digest, index)
  le      : index ≤ total size items
  reached : index * size ≤ k ∨ k = items.length

theorem Stands.moves {k' : ℕ} {s' : State} (h : Stands run a items size runs digest index k s)
    (hm : Moves run a items k k' s s') : Stands run a items size runs digest index k' s' where
  at'     := hm.at'
  runs    := hm.runs.trans h.runs
  le      := h.le
  reached := by
    obtain hr | hr := h.reached
    · exact .inl (hr.trans hm.le)
    · have := hm.at'.le
      have := hm.le
      exact .inr (by omega)

-- A limit that lets the batch pass.
def Passes (items : List Item) (size : ℕ) (limit : Option ℤ) (index : ℕ) (handled : Sessions) : Prop :=
  ∀ n, limit = some n → handled.length + (min size (items.length - index * size) : ℕ) ≤ n

-- How a call ends that starts at a batch: behind the last one, at the limit, or at an outage or a crash.
inductive Ended (run : Run) (a : Stores) (items : List Item) (size : ℕ) (runs : Runs) (digest : PlanDigest)
    (limit : Option ℤ) (index : ℕ) (handled : Sessions) (s : State) : Step (Progress × Sessions) → Prop
  | completed (handled' : Sessions) (s' : State) (k : ℕ)
    (hpass : index < total size items → Passes items size limit index handled)
    (h : Stands run a items size runs digest (total size items) k s') :
    Ended run a items size runs digest limit index handled s (.done (.completed, handled') s')
  | limited (handled' : Sessions) (s' : State) (index' k : ℕ) (hi : index ≤ index') (hl : limit ≠ none)
    (hn : index = index' → ∃ n, limit = some n ∧ n < handled.length + min size items.length)
    (hpass : index < index' → Passes items size limit index handled)
    (h : Stands run a items size runs digest index' k s') :
    Ended run a items size runs digest limit index handled s (.done (.partly, handled') s')
  | interrupted (handled' : Sessions) (s' : State) (index' k : ℕ) (h : Stands run a items size runs digest index' k s')
    (hl : s.lucks ≠ []) : Ended run a items size runs digest limit index handled s (.done (.interrupted, handled') s')
  | halt (halt : Halt) (s' : State) (index' k : ℕ) (hh : ∀ refusal, halt ≠ .rejected refusal)
    (h : Stands run a items size runs digest index' k s') (hl : s.lucks ≠ []) :
    Ended run a items size runs digest limit index handled s (.halt halt s')

theorem index_lt_total (index : ℕ) (items : List Item) (hsize : 0 < size) : index < total size items ↔ index * size < items.length := by
  rw [total, Nat.lt_div_iff_mul_lt hsize]
  omega

theorem drop_batchesOf : (batchesOf size items).drop index = if index < total size items then
    (items.drop (index * size)).take size :: (batchesOf size items).drop (index + 1) else [] := by
  split
  case isTrue h  =>
    rw [List.drop_eq_getElem_cons (by simpa [batchesOf] using h)]
    simp [batchesOf]
  case isFalse h => exact List.drop_of_length_le (by simpa [batchesOf] using h)

-- The checkpoint moves behind a batch that was handled.
theorem advance_cases (hlt : index < total size items)
    (hreached : (index + 1) * size ≤ k ∨ k = items.length) (h : Stands run a items size runs digest index k s) :
    (∃ s', advance run index s = .done () s' ∧ Stands run a items size runs digest (index + 1) k s' ∧
      (s.lucks = [] → s'.lucks = [])) ∨
    ∃ s', advance run index s = .halt .crashed s' ∧ Stands run a items size runs digest index k s' ∧ s.lucks ≠ [] := by
  have hb := h.at'.between
  have hadvance : s.ledger.advanced run.runId index (index + 1) =
      some { s.ledger with runs := runs.insert run.runId (digest, index + 1) } := by
    simp [Ledger.advanced, h.runs, Finmap.insert_insert]
  rw [advance, hadvance]
  obtain ⟨l, hw, hl⟩ | ⟨l, hw, hl⟩ := write_cases s fun _ =>
    { s.ledger with runs := runs.insert run.runId (digest, index + 1) }
  · refine .inl ⟨_, hw, ⟨⟨h.at'.le, hb.catalog, hb.sessions, hb.lower, hb.upper⟩, rfl, hlt, hreached⟩, hl⟩
  · exact .inr ⟨_, hw, ⟨⟨h.at'.le, hb.catalog, hb.sessions, hb.lower, hb.upper⟩, h.runs, h.le, h.reached⟩, hl⟩

theorem handleBatches_ended (limit : Option ℤ) (handled : Sessions) (hs : Sound a.catalog) (hp : Provenanced a.catalog) (hsize : 0 < size)
    (hb : batches = (batchesOf size items).drop index) (h : Stands run a items size runs digest index k s) :
    Ended run a items size runs digest limit index handled s (handleBatches run limit index batches handled s) := by
  induction batches generalizing index k handled s
  case nil =>
    have he : index = total size items := by
      rw [drop_batchesOf] at hb
      split at hb
      case isTrue    => cases hb
      case isFalse hn =>
        have := h.le
        omega
    exact .completed handled s k (fun hlt => absurd he hlt.ne) (he ▸ h)
  case cons batch batches hi =>
    rw [drop_batchesOf] at hb
    split at hb
    case isFalse    => cases hb
    case isTrue hlt =>
      obtain ⟨rfl, hrest⟩ := List.cons.inj hb
      have hlen := (index_lt_total index items hsize).mp hlt
      have hbatched := handleBatch_batched limit handled hs hp
        (List.take_prefix size (items.drop (index * size)))
        (by obtain hr | hr := h.reached <;> omega) h.at'
      have hmin : ((items.drop (index * size)).take size).length ≤ min size items.length := by simp
      have hnext : items.length ≤ index * size + ((items.drop (index * size)).take size).length ∨
          (index + 1) * size = index * size + ((items.drop (index * size)).take size).length := by
        rw [Nat.succ_mul, List.length_take, List.length_drop]
        omega
      rw [handleBatches]
      generalize handleBatch run limit _ handled s = step at hbatched
      cases hbatched with
      | limited handled' s' k' hn hm         =>
        obtain ⟨n, hl, hn⟩ := hn
        exact .limited handled' s' index k' le_rfl (by simp [hl]) (fun _ => ⟨n, hl, by omega⟩)
          (fun hlt => absurd hlt (lt_irrefl _)) (h.moves hm)
      | interrupted handled' s' k' hm hl     => exact .interrupted handled' s' index k' (h.moves hm) hl
      | halt halt s' k' hh hm hl             => exact .halt halt s' index k' hh (h.moves hm) hl
      | through handled' s' k' hk hn hm      =>
        have hpass : Passes items size limit index handled := by
          intro n hl
          have := hn n hl
          rw [List.length_take, List.length_drop] at this
          omega
        obtain ⟨s'', ha, hnext, hl⟩ | ⟨s'', ha, hstands, hl⟩ := advance_cases hlt (by have := hm.at'.le; omega) (h.moves hm)
        · simp only [Step.bind, ha]
          have hended := hi handled' hrest hnext
          generalize handleBatches run limit (index + 1) batches handled' s'' = step at hended
          cases hended with
          | completed handled'' t k _ h               => exact .completed handled'' t k (fun _ => hpass) h
          | limited handled'' t index' k hle hl _ _ h =>
            exact .limited handled'' t index' k (by omega) hl (fun he => by omega) (fun _ => hpass) h
          | interrupted handled'' t index' k h hl' =>
            exact .interrupted handled'' t index' k h fun hn => hl' (hl (hm.lucks hn))
          | halt halt t index' k hh h hl'          => exact .halt halt t index' k hh h fun hn => hl' (hl (hm.lucks hn))
        · simp only [Step.bind, ha]
          exact .halt .crashed s'' index k' (by simp) hstands fun hn => hl (hm.lucks hn)

end Batches

section Calls

variable {M : Type} {tools : Tools M} {plan : Plan M} {items : List Item} {run : Run} {a : Stores} {runs : Runs}
  {limit : Option ℤ} {s : State}

-- A state between the calls of a run: it was not opened yet, or it stands at a batch.
def Fits (plan : Plan M) (items : List Item) (run : Run) (a : Stores) (runs : Runs) (s : State) : Prop :=
  (s.ledger.runs = runs ∧ At run a items 0 s) ∨
    ∃ index k, Stands run a items plan.batchSize.toNat runs (planDigest items plan.batchSize) index k s

theorem At.lucky {items : List Item} {k : ℕ} {l : List Luck} (h : At run a items k s) : At run a items k { s with lucks := l } :=
  ⟨h.le, h.between.catalog, h.between.sessions, h.between.lower, h.between.upper⟩

theorem Fits.lucky {l : List Luck} (h : Fits plan items run a runs s) : Fits plan items run a runs { s with lucks := l } := by
  obtain ⟨hr, h⟩ | ⟨index, k, h⟩ := h
  · exact .inl ⟨hr, h.lucky⟩
  · exact .inr ⟨index, k, h.at'.lucky, h.runs, h.le, h.reached⟩

theorem Stands.checkpoint {items : List Item} {size index k : ℕ} {digest : PlanDigest}
    (h : Stands run a items size runs digest index k s) : s.ledger.checkpoint run.runId = index := by
  simp [Ledger.checkpoint, h.runs]

theorem openRun_cases (hnew : runs.lookup run.runId = none) (h : Fits plan items run a runs s) :
    (∃ s' k, openRun run (planDigest items plan.batchSize) s = .done () s' ∧
      Stands run a items plan.batchSize.toNat runs (planDigest items plan.batchSize)
        (s.ledger.checkpoint run.runId) k s' ∧ (s.lucks = [] → s'.lucks = [])) ∨
    ∃ s', openRun run (planDigest items plan.batchSize) s = .halt .crashed s' ∧
      Fits plan items run a runs s' ∧ s.lucks ≠ [] := by
  obtain ⟨l, hw, hl⟩ | ⟨l, hw, hl⟩ := write_cases s fun l =>
    l.opened run.runId (planDigest items plan.batchSize)
  · refine .inl ?_
    simp only [openRun, hw, Step.bind]
    obtain ⟨hr, h⟩ | ⟨index, k, h⟩ := h
    · have hb := h.between
      have hopened : s.ledger.opened run.runId (planDigest items plan.batchSize) =
          { s.ledger with runs := runs.insert run.runId (planDigest items plan.batchSize, 0) } := by
        simp [Ledger.opened, hr, hnew]
      have hcheckpoint : s.ledger.checkpoint run.runId = 0 := by
        simp [Ledger.checkpoint, hr, hnew]
      simp only [hopened, Finmap.lookup_insert, if_true, hcheckpoint]
      exact ⟨_, 0, rfl, ⟨⟨h.le, hb.catalog, hb.sessions, hb.lower, hb.upper⟩, rfl, Nat.zero_le _, by simp⟩, hl⟩
    · have hopened : s.ledger.opened run.runId (planDigest items plan.batchSize) = s.ledger := by
        simp [Ledger.opened, h.runs]
      simp only [hopened, h.checkpoint, h.runs, Finmap.lookup_insert, if_true]
      exact ⟨_, k, rfl, ⟨h.at'.lucky, h.runs, h.le, h.reached⟩, hl⟩
  · exact .inr ⟨{ s with lucks := l }, by simp only [openRun, hw, Step.bind], h.lucky, hl⟩

def Reply.finished : Reply → Prop
  | report r => r.state = .completed ∨ r.state = .completedWithGaps
  | _        => False

instance : DecidablePred Reply.finished
  | .report r   => inferInstanceAs (Decidable (r.state = .completed ∨ r.state = .completedWithGaps))
  | .crashed    => .isFalse id
  | .rejected _ => .isFalse id

abbrev Rests (plan : Plan M) (items : List Item) (run : Run) (a : Stores) (runs : Runs) (index k : ℕ) (s : State) : Prop :=
  Stands run a items plan.batchSize.toNat runs (planDigest items plan.batchSize) index k s

-- What a call comes to: it is the last, it ends at its limit, or there was an outage or a crash.
inductive Called (plan : Plan M) (items : List Item) (run : Run) (a : Stores) (runs : Runs) (limit : Option ℤ) (s : State) :
    Reply × State → Prop
  | finished (reply : Reply) (s' : State) (k : ℕ) (hf : reply.finished)
    (hpass : s.ledger.checkpoint run.runId < total plan.batchSize.toNat items →
      Passes items plan.batchSize.toNat limit (s.ledger.checkpoint run.runId) [])
    (h : Rests plan items run a runs (total plan.batchSize.toNat items) k s') :
    Called plan items run a runs limit s (reply, s')
  | limited (reply : Reply) (s' : State) (index k : ℕ) (hf : ¬ reply.finished) (hl : limit ≠ none)
    (hi : s.ledger.checkpoint run.runId ≤ index)
    (hn : s.ledger.checkpoint run.runId = index →
      ∃ n, limit = some n ∧ n < (min plan.batchSize.toNat items.length : ℕ))
    (hpass : s.ledger.checkpoint run.runId < index →
      Passes items plan.batchSize.toNat limit (s.ledger.checkpoint run.runId) [])
    (h : Rests plan items run a runs index k s') : Called plan items run a runs limit s (reply, s')
  | broken (reply : Reply) (s' : State) (h : Fits plan items run a runs s') (hl : s.lucks ≠ []) :
    Called plan items run a runs limit s (reply, s')

theorem planError_size (h : planError run.grant plan run.runId = none) : 0 < plan.batchSize.toNat := by
  unfold planError at h
  split at h
  case isTrue => cases h
  case isFalse =>
    split at h
    case isTrue     => cases h
    case isFalse hn => omega

theorem backfill_called (limit : Option ℤ) (hs : Sound a.catalog) (hp : Provenanced a.catalog)
    (hplan : planError run.grant plan run.runId = none) (hwork : plan.work tools = some items)
    (hnew : runs.lookup run.runId = none)
    (h : Fits plan items run a runs s) : Called plan items run a runs limit s (backfill tools plan run limit s) := by
  simp only [backfill, hplan, hwork]
  obtain ⟨s', k, ho, hstands, hl⟩ | ⟨s', ho, hfits, hl⟩ := openRun_cases hnew h
  case inr =>
    simp only [ho, Step.bind]
    exact .broken _ s' hfits hl
  case inl =>
    simp only [ho, Step.bind, batches, hstands.checkpoint]
    have hended := handleBatches_ended limit [] hs hp (planError_size hplan) rfl hstands
    generalize handleBatches run limit _ _ [] s' = step at hended
    cases hended with
    | completed handled s'' k hpass h =>
      refine .finished _ s'' k ?_ hpass h
      simp only [Reply.finished, reportOf]
      split
      case isTrue  => exact .inl rfl
      case isFalse => exact .inr rfl
    | limited handled s'' index k hi hlimit hn hpass h =>
      exact .limited _ s'' index k (by simp [Reply.finished, reportOf]) hlimit hi
        (fun he => by simpa using hn he) hpass h
    | interrupted handled s'' index k h hl'   => exact .broken _ s'' (.inr ⟨index, k, h⟩) fun hn => hl' (hl hn)
    | halt halt s'' index k hh h hl'          =>
      cases halt with
      | rejected refusal => exact absurd rfl (hh refusal)
      | crashed          => exact .broken _ s'' (.inr ⟨index, k, h⟩) fun hn => hl' (hl hn)
      | unavailable      => exact .broken _ s'' (.inr ⟨index, k, h⟩) fun hn => hl' (hl hn)

theorem Called.fits {reply : Reply} {s' : State} (h : Called plan items run a runs limit s (reply, s')) :
    Fits plan items run a runs s' := by
  cases h with
  | finished _ _ k _ _ h             => exact .inr ⟨_, k, h⟩
  | limited _ _ index k _ _ _ _ _ h  => exact .inr ⟨index, k, h⟩
  | broken _ _ h _                   => exact h

theorem fits_run (hs : Sound a.catalog) (hp : Provenanced a.catalog)
    (hplan : planError run.grant plan run.runId = none) (hwork : plan.work tools = some items)
    (hnew : runs.lookup run.runId = none) (calls : List Call)
    (h : Fits plan items run a runs s) : Fits plan items run a runs (Run.run (call tools plan run) s calls) :=
  Run.invariant (fun _ _ h => (backfill_called _ hs hp hplan hwork hnew h.lucky).fits) h

-- The state that all the calls lead to.
structure Final (plan : Plan M) (items : List Item) (run : Run) (a : Stores) (runs : Runs) (s : State) : Prop where
  reaches : Reaches (Run.run (settle run) a items) s
  runs    : s.ledger.runs = runs.insert run.runId
    (planDigest items plan.batchSize, total plan.batchSize.toNat items)

theorem le_total_mul {size : ℕ} (items : List Item) (h : 0 < size) : items.length ≤ total size items * size := by
  have := (index_lt_total (total size items) items h).not.mp (lt_irrefl _)
  omega

theorem Stands.final {k : ℕ} (hsize : 0 < plan.batchSize.toNat)
    (h : Rests plan items run a runs (total plan.batchSize.toNat items) k s) : Final plan items run a runs s where
  reaches := by
    have hk : k = items.length := by
      have := h.at'.le
      have := le_total_mul items hsize
      obtain hr | hr := h.reached <;> omega
    subst hk
    exact h.at'.reaches
  runs    := h.runs

def replyOf (tools : Tools M) (plan : Plan M) (run : Run) (s : State) (c : Call) : Reply :=
  (backfill tools plan run c.limit { s with lucks := c.lucks }).1

-- A call that nothing interrupts, and whose limit is that of a batch or more.
def Clean (plan : Plan M) (items : List Item) (c : Call) : Prop :=
  c.lucks = [] ∧ ∀ n, c.limit = some n → min plan.batchSize items.length ≤ n

theorem min_toNat_le {n size : ℤ} {length : ℕ} (h : min size length ≤ n) (hsize : 0 < size.toNat) :
    (min size.toNat length : ℕ) ≤ n := by
  omega

theorem called_clean {c : Call} (hs : Sound a.catalog) (hp : Provenanced a.catalog)
    (hplan : planError run.grant plan run.runId = none) (hwork : plan.work tools = some items)
    (hnew : runs.lookup run.runId = none) (hc : Clean plan items c)
    (h : Fits plan items run a runs s) :
    ((replyOf tools plan run s c).finished ∧ Final plan items run a runs (call tools plan run s c)) ∨
      (c.limit ≠ none ∧ s.ledger.checkpoint run.runId < (call tools plan run s c).ledger.checkpoint run.runId ∧
        (call tools plan run s c).ledger.checkpoint run.runId ≤ total plan.batchSize.toNat items) := by
  have hsize := planError_size hplan
  have hcalled := backfill_called c.limit hs hp hplan hwork hnew (h.lucky (l := c.lucks))
  rw [replyOf, call]
  generalize backfill tools plan run c.limit _ = result at hcalled
  cases hcalled with
  | finished reply s' k hf _ h              => exact .inl ⟨hf, h.final hsize⟩
  | broken reply s' h hl                    => exact absurd hc.left hl
  | limited reply s' index k _ hl hi hn _ h =>
    refine .inr ⟨hl, ?_, ?_⟩
    · refine lt_of_le_of_ne (h.checkpoint ▸ hi) fun he => ?_
      obtain ⟨n, hlimit, hlt⟩ := hn (he.trans h.checkpoint)
      exact absurd (min_toNat_le (hc.right n hlimit) hsize) (not_le.mpr hlt)
    · rw [h.checkpoint]
      exact h.le

-- Each call moves the checkpoint on, until it is behind the last batch.
theorem calls_finish (hs : Sound a.catalog) (hp : Provenanced a.catalog)
    (hplan : planError run.grant plan run.runId = none) (hwork : plan.work tools = some items)
    (hnew : runs.lookup run.runId = none) {later : List Call}
    (hclean : ∀ c ∈ later, Clean plan items c)
    (hlong : total plan.batchSize.toNat items < s.ledger.checkpoint run.runId + later.length)
    (hle : s.ledger.checkpoint run.runId ≤ total plan.batchSize.toNat items)
    (h : Fits plan items run a runs s) :
    ∃ earlier c rest, later = earlier ++ c :: rest ∧
      let s' := Run.run (call tools plan run) s earlier
      (replyOf tools plan run s' c).finished ∧ Final plan items run a runs (call tools plan run s' c) := by
  induction later generalizing s
  case nil =>
    simp at hlong
    omega
  case cons c later hi =>
    obtain hf | ⟨-, hlt, hle'⟩ := called_clean hs hp hplan hwork hnew (hclean c List.mem_cons_self) h
    · exact ⟨[], c, later, rfl, hf⟩
    · obtain ⟨earlier, c', rest, rfl, hf⟩ := hi (s := call tools plan run s c)
        (fun c' hc' => hclean c' (List.mem_cons_of_mem _ hc')) (by simp at hlong; omega) hle'
        (fits_run hs hp hplan hwork hnew [c] h)
      exact ⟨c :: earlier, c', rest, rfl, hf⟩

-- With a limit below the length of the first batch no call is the last, and the next one starts over.
theorem stalls (hs : Sound a.catalog) (hp : Provenanced a.catalog)
    (hplan : planError run.grant plan run.runId = none) (hwork : plan.work tools = some items)
    (hnew : runs.lookup run.runId = none) {n : ℤ} (hpos : 0 ≤ n) (hn : n < (min plan.batchSize.toNat items.length : ℕ))
    (hzero : s.ledger.checkpoint run.runId = 0) (h : Fits plan items run a runs s) :
    ¬ (replyOf tools plan run s ⟨some n, []⟩).finished ∧
      (call tools plan run s ⟨some n, []⟩).ledger.checkpoint run.runId = 0 ∧
        Fits plan items run a runs (call tools plan run s ⟨some n, []⟩) := by
  have hcalled := backfill_called (some n) hs hp hplan hwork hnew (h.lucky (l := []))
  have hfits := fits_run hs hp hplan hwork hnew [⟨some n, []⟩] h
  rw [Run.run_cons, Run.run_nil] at hfits
  have hnot : ¬ Passes items plan.batchSize.toNat (some n) 0 [] := by
    intro hpass
    have hle := hpass n rfl
    rw [Nat.zero_mul, Nat.sub_zero, List.length_nil] at hle
    omega
  have htotal : 0 < total plan.batchSize.toNat items := by
    rw [index_lt_total 0 items (planError_size hplan)]
    omega
  have hchecked : ({ s with lucks := [] } : State).ledger.checkpoint run.runId = 0 := hzero
  rw [replyOf]
  rw [call] at hfits ⊢
  generalize backfill tools plan run (some n) _ = result at hcalled hfits
  cases hcalled with
  | finished reply s' k hf hpass h                  => exact absurd (hchecked ▸ hpass (hchecked ▸ htotal)) hnot
  | broken reply s' h hl                            => exact absurd rfl hl
  | limited reply s' index k hf hl hi hlt hpass h   =>
    refine ⟨hf, ?_, hfits⟩
    rw [h.checkpoint]
    by_contra hindex
    exact hnot (hchecked ▸ hpass (by omega))

end Calls

section Log

variable {M : Type} {tools : Tools M} {plan : Plan M} {run : Run} {item : Item} {items : List Item} {source : Import}
  {limit : Option ℤ} {handled : Sessions} {s : State}

-- The generations whose events were inserted: each once, and its batch is in the catalog.
structure Logged (run : Run) (s : State) : Prop where
  sound  : Sound s.catalog
  stored : ∀ place ∈ s.inserted, (s.catalog.batches.lookup (run.grant.corpus, place.2)).isSome
  once   : (s.inserted.map Prod.snd).Nodup

theorem Step.bind_logged {α β : Type} {step : Step α} {next : α → State → Step β} (h : Logged run step.state)
    (hn : ∀ x s, Logged run s → Logged run (next x s).state) : Logged run (step.bind next).state := by
  cases step with
  | done x s    => exact hn x s h
  | halt halt s => exact h

theorem write_logged {change : Ledger → Ledger} (h : Logged run s) : Logged run (write s change).state := by
  unfold write
  split
  case h_1 => exact ⟨h.sound, h.stored, h.once⟩
  case h_2 => exact ⟨h.sound, h.stored, h.once⟩
  case h_3 => exact ⟨h.sound, h.stored, h.once⟩

theorem keyOf_request : Ingest.keyOf (request run item source) = (run.grant.corpus, source.generation) :=
  rfl

theorem ingested_logged {fails : Bool} {l : List Luck} (h : Logged run s) :
    Logged run (ingested s ⟨run.grant, request run item source, fails⟩ (item.sessionUid, source.generation) l).state := by
  have hingested := Ingest.ingested (r := ⟨run.grant, request run item source, fails⟩) h.sound.rows
  have hsound : Sound (Ingest.ingest s.catalog ⟨run.grant, request run item source, fails⟩).1 := h.sound.step
  have hstored : ∀ place ∈ s.inserted, ((Ingest.ingest s.catalog
      ⟨run.grant, request run item source, fails⟩).1.batches.lookup (run.grant.corpus, place.2)).isSome := by
    intro place hm
    obtain ⟨batch, hb⟩ := Option.isSome_iff_exists.mp (h.stored place hm)
    rw [Option.isSome_iff_exists]
    exact ⟨batch, Ingest.batches_step h.sound hb⟩
  rw [ingested]
  generalize hr : Ingest.ingest s.catalog ⟨run.grant, request run item source, fails⟩ = result at *
  obtain ⟨c, reply⟩ := result
  cases hingested with
  | refused error              => exact ⟨hsound, by simpa [Step.state] using hstored, by simpa [Step.state] using h.once⟩
  | raised                     => exact ⟨hsound, by simpa [Step.state] using hstored, by simpa [Step.state] using h.once⟩
  | replayed stored hk hb hd   => exact ⟨hsound, by simpa [Step.state] using hstored, by simpa [Step.state] using h.once⟩
  | applied c₁ ids hk hb he    =>
    have hb : s.catalog.batches.lookup (run.grant.corpus, source.generation) = none := hb
    refine ⟨hsound, fun place hm => ?_, ?_⟩
    · obtain hm | hm := List.mem_append.mp hm
      · exact hstored place hm
      · obtain rfl := List.mem_singleton.mp hm
        simp only [Step.state]
        rw [show (run.grant.corpus, source.generation) = Ingest.keyOf (request run item source) from rfl, Ingest.keyOf,
          Finmap.lookup_insert]
        rfl
    · simp only [Step.state, if_true, List.map_append, List.map_cons, List.map_nil]
      refine List.nodup_append.mpr ⟨h.once, List.nodup_singleton _, ?_⟩
      rintro x hx y hy rfl
      obtain rfl := List.mem_singleton.mp hy
      obtain ⟨place, hm, hp⟩ := List.mem_map.mp hx
      have := h.stored place hm
      rw [hp, hb] at this
      cases this

theorem ingest_logged (h : Logged run s) :
    Logged run (ingest s run.grant (request run item source) (item.sessionUid, source.generation)).state := by
  unfold ingest
  split
  case h_1 => exact ingested_logged h
  case h_2 => exact ingested_logged h
  case h_3 => exact ingested_logged h
  case h_4 => exact ⟨h.sound, h.stored, h.once⟩

theorem importSession_logged (h : Logged run s) : Logged run (importSession run item source s).state := by
  unfold importSession
  split
  case isTrue  => exact h
  case isFalse =>
    split
    case isTrue  => exact h
    case isFalse =>
      refine Step.bind_logged (ingest_logged h) fun reply s h => ?_
      cases reply with
      | committed answer => exact Step.bind_logged (write_logged h) fun _ _ h => h
      | raised           => exact h
      | refused _ error  =>
        simp only
        split
        case isTrue  => exact h
        case isFalse => exact Step.bind_logged (write_logged h) fun _ _ h => h

theorem quarantineAll_logged {entries : List Entry} {sessionUid : String} (h : Logged run s) :
    Logged run (quarantineAll run sessionUid entries s).state := by
  induction entries generalizing s
  case nil     => exact h
  case cons hi => exact Step.bind_logged (write_logged h) fun _ _ h => hi h

theorem session_logged (item : Item) (h : Logged run s) : Logged run (session run item s).state := by
  refine Step.bind_logged (quarantineAll_logged h) fun _ s h => ?_
  cases item.outcome with
  | selected source => exact importSession_logged h
  | quarantined     => exact h
  | missing         => exact h

theorem handleBatch_logged (h : Logged run s) : Logged run (handleBatch run limit items handled s).state := by
  induction items generalizing handled s
  case nil          => exact h
  case cons item items hi =>
    rw [handleBatch]
    split
    case isTrue  => exact h
    case isFalse =>
      have hsession := session_logged item h
      generalize session run item s = step at hsession
      cases step with
      | done x s    => exact hi hsession
      | halt halt s => cases halt <;> exact hsession

theorem handleBatches_logged {batches : List (List Item)} {index : ℕ} (h : Logged run s) :
    Logged run (handleBatches run limit index batches handled s).state := by
  induction batches generalizing index handled s
  case nil     => exact h
  case cons hi =>
    refine Step.bind_logged (handleBatch_logged h) fun result s h => ?_
    obtain ⟨ended, handled⟩ := result
    cases ended with
    | some progress => exact h
    | none          =>
      refine Step.bind_logged ?_ fun _ _ h => hi h
      unfold advance
      split
      case h_1 => exact write_logged h
      case h_2 => exact h

theorem call_logged {c : Call} (h : Logged run s) : Logged run (call tools plan run s c) := by
  have hlucky : Logged run { s with lucks := c.lucks } := ⟨h.sound, h.stored, h.once⟩
  unfold call backfill
  split
  case h_1 => exact hlucky
  case h_2 => exact hlucky
  case h_3 items _ _ =>
    extract_lets size step
    have hstep : Logged run step.state := by
      refine Step.bind_logged ?_ fun _ _ h => handleBatches_logged h
      refine Step.bind_logged (write_logged hlucky) fun _ s h => ?_
      split
      case h_1 => split <;> exact h
      case h_2 => exact h
    generalize step = step at hstep
    split <;> exact hstep

end Log

section Completion

variable {M : Type}

-- A state before the first call of a run.
def initial (requests : List Ingest.Request) (ledger : Ledger) : State :=
  ⟨Run.run Ingest.step Ingest.empty requests, ledger, [], []⟩

theorem initial_logged (run : Run) (requests : List Ingest.Request) (ledger : Ledger) :
    Logged run (initial requests ledger) where
  sound  := Sound.empty.run requests
  stored := by simp [initial]
  once   := List.nodup_nil

theorem initial_provenanced (requests : List Ingest.Request) (ledger : Ledger) :
    Provenanced (initial requests ledger).catalog :=
  Run.invariant (fun _ _ h => Ingest.provenanced_step h) fun key h => by simp [Ingest.empty] at h

theorem initial_fits (plan : Plan M) (items : List Item) (run : Run) (requests : List Ingest.Request) (ledger : Ledger) :
    Fits plan items run (initial requests ledger).stores ledger.runs (initial requests ledger) := by
  refine .inl ⟨rfl, Reaches.at (Nat.zero_le _) ?_⟩
  exact ⟨rfl, rfl, rfl⟩

-- What one call without a limit comes to is what all others come to: nothing is ingested twice, and whatever outages,
-- crashes and limits there were before, after enough calls without them one is the last.
theorem backfill_completes (tools : Tools M) (plan : Plan M) (run : Run) (requests : List Ingest.Request) (ledger : Ledger)
    (hplan : planError run.grant plan run.runId = none) (items : List Item) (hwork : plan.work tools = some items)
    (hnew : ledger.runs.lookup run.runId = none)
    (calls later : List Call) (hclean : ∀ c ∈ later, Clean plan items c)
    (hlong : total plan.batchSize.toNat items < later.length) :
    ((Run.run (call tools plan run) (initial requests ledger) calls).inserted.map Prod.snd).Nodup ∧
      ∃ earlier c rest, later = earlier ++ c :: rest ∧
        let s := Run.run (call tools plan run) (initial requests ledger) (calls ++ earlier)
        let final := call tools plan run s c
        let once := call tools plan run (initial requests ledger) ⟨none, []⟩
        (replyOf tools plan run s c).finished ∧ final.ledger = once.ledger ∧ Counted once.catalog final.catalog ∧
          (final.inserted.map Prod.snd).Nodup := by
  have hlog := initial_logged run requests ledger
  have hp := initial_provenanced requests ledger
  have hfits := initial_fits plan items run requests ledger
  have hlogged (cs : List Call) : Logged run (Run.run (call tools plan run) (initial requests ledger) cs) :=
    Run.invariant (fun _ _ h => call_logged h) hlog
  have honce : Final plan items run (initial requests ledger).stores ledger.runs
      (call tools plan run (initial requests ledger) ⟨none, []⟩) := by
    obtain ⟨-, hf⟩ | ⟨hn, -⟩ := called_clean (c := ⟨none, []⟩) hlog.sound hp hplan hwork hnew ⟨rfl, by simp⟩ hfits
    · exact hf
    · exact absurd rfl hn
  refine ⟨(hlogged calls).once, ?_⟩
  have hbefore := fits_run hlog.sound hp hplan hwork hnew calls hfits
  have hle : (Run.run (call tools plan run) (initial requests ledger) calls).ledger.checkpoint run.runId ≤
      total plan.batchSize.toNat items := by
    obtain ⟨hr, -⟩ | ⟨index, k, h⟩ := hbefore
    · simp [Ledger.checkpoint, hr, hnew]
    · rw [h.checkpoint]
      exact h.le
  obtain ⟨earlier, c, rest, rfl, hfinished, hfinal⟩ := calls_finish hlog.sound hp hplan hwork hnew hclean (by omega) hle hbefore
  rw [← Run.run_append] at hfinished hfinal
  refine ⟨earlier, c, rest, rfl, hfinished, ?_, honce.reaches.catalog.symm.trans hfinal.reaches.catalog, ?_⟩
  · have hsessions := hfinal.reaches.sessions.trans honce.reaches.sessions.symm
    have hquarantine := hfinal.reaches.quarantine.trans honce.reaches.quarantine.symm
    exact Ledger.ext (hfinal.runs.trans honce.runs.symm) hsessions hquarantine
  · have := (hlogged (calls ++ earlier ++ [c])).once
    rwa [Run.run_concat] at this

-- Two sessions of which a vector row each is left, in one batch.
def rowEvent (row : String) : JsonValue :=
  .object [("sequence", .scalar (.int 1)), ("byte_start", .scalar (.int 0)), ("byte_end", .scalar (.int 0)),
    ("project_id", .scalar .null), ("record", .object [("kind", .scalar (.str "meta")), ("text", .scalar (.str row)),
      ("legacy_chunk_idx", .scalar (.int 0)), ("source_time", .scalar .null)])]

def rowTools : Tools String where
  audit source      := some (.ok ⟨.vectorOnly, "fragment", none, none, some source.material⟩)
  events source _ _ := some [rowEvent source.material]

def twoRows : Plan String :=
  ⟨"c", [⟨"claude", "laptop", "b", "/b", "hello"⟩, ⟨"claude", "laptop", "a", "/a", "goodbye"⟩], [], 2⟩

def legacyRun : Run :=
  ⟨⟨"c", ∅⟩, "r"⟩

def twoItems : List Item :=
  (twoRows.work rowTools).getD []

theorem twoRows_work : twoRows.work rowTools = some twoItems := by
  rw [twoItems, ← Option.some_get (show (twoRows.work rowTools).isSome by decide)]
  rfl

theorem backfill_completes_rows :
    ((Run.run (call rowTools twoRows legacyRun) (initial [] ⟨∅, ∅, ∅⟩) [⟨some 1, [.fine, .fine, .crash]⟩]).inserted.map
      Prod.snd).Nodup ∧
      ∃ earlier c rest, [⟨some 2, []⟩, ⟨none, []⟩] = earlier ++ c :: rest ∧
        let s := Run.run (call rowTools twoRows legacyRun) (initial [] ⟨∅, ∅, ∅⟩)
          ([⟨some 1, [.fine, .fine, .crash]⟩] ++ earlier)
        let final := call rowTools twoRows legacyRun s c
        let once := call rowTools twoRows legacyRun (initial [] ⟨∅, ∅, ∅⟩) ⟨none, []⟩
        (replyOf rowTools twoRows legacyRun s c).finished ∧ final.ledger = once.ledger ∧ Counted once.catalog final.catalog ∧
          (final.inserted.map Prod.snd).Nodup := by
  have hlen : twoItems.length = 2 := by decide
  refine backfill_completes rowTools twoRows legacyRun [] ⟨∅, ∅, ∅⟩ (by decide) twoItems twoRows_work (by decide) _ _ ?_ ?_
  · intro c hc
    simp only [List.mem_cons, List.not_mem_nil, or_false] at hc
    obtain rfl | rfl := hc
    · refine ⟨rfl, fun n hn => ?_⟩
      obtain rfl := Option.some.inj hn
      rw [hlen]
      decide
    · exact ⟨rfl, by simp⟩
  · rw [total, hlen]
    decide

theorem backfill_stalls :
    (∀ m, ¬ (replyOf rowTools twoRows legacyRun (Run.run (call rowTools twoRows legacyRun) (initial [] ⟨∅, ∅, ∅⟩)
      (List.replicate m ⟨some 1, []⟩)) ⟨some 1, []⟩).finished) ∧
      (let s := call rowTools twoRows legacyRun (initial [] ⟨∅, ∅, ∅⟩) ⟨none, [.fine, .fine, .crash]⟩
      (replyOf rowTools twoRows legacyRun s ⟨none, []⟩).finished ∧
        (call rowTools twoRows legacyRun s ⟨none, []⟩).catalog ≠
          (call rowTools twoRows legacyRun (initial [] ⟨∅, ∅, ∅⟩) ⟨none, []⟩).catalog) := by
  refine ⟨?_, by decide, fun h => ?_⟩
  case refine_1 =>
    have hlog := initial_logged legacyRun [] ⟨∅, ∅, ∅⟩
    have hp := initial_provenanced [] ⟨∅, ∅, ∅⟩
    suffices h : ∀ m (s : State), s.ledger.checkpoint legacyRun.runId = 0 →
        Fits twoRows twoItems legacyRun (initial [] ⟨∅, ∅, ∅⟩).stores ∅ s →
        ¬ (replyOf rowTools twoRows legacyRun (Run.run (call rowTools twoRows legacyRun) s (List.replicate m ⟨some 1, []⟩))
          ⟨some 1, []⟩).finished from fun m => h m _ (by decide) (initial_fits _ _ _ _ _)
    intro m
    induction m with
    | zero      =>
      intro s hzero hfits
      exact (stalls hlog.sound hp (by decide) twoRows_work (by decide) (by omega) (by decide) hzero hfits).left
    | succ m hi =>
      intro s hzero hfits
      obtain ⟨-, hzero', hfits'⟩ := stalls hlog.sound hp (by decide) twoRows_work (by decide) (show (0 : ℤ) ≤ 1 by omega)
        (by decide) hzero hfits
      exact hi _ hzero' hfits'
  case refine_2 =>
    have := congrArg (fun c : Catalog => c.duplicates "c") h
    revert this
    decide

end Completion

end Backfill
