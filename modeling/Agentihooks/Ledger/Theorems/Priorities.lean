import Agentihooks.Ledger.Priorities

-- After a derivation every item has at most one derived row, on an ask that waits with this text, and a dismissal
-- lasts as long as every derivation finds its ask as it was.

namespace Priorities

open Run

variable {s : Ledger} {e : Event} {es : List Event} {p row : Row} {rows : List Row} {task : Task} {doc : Doc}
variable {found : List (String × String)} {lines : List (String × Option String)}
variable {dismissed : KeyTable String String} {item text target author : String} {reason : Option String}
variable {time : ℕ} {x : String × String}

theorem nodup_put {key value : String} (h : (found.map Prod.fst).Nodup) :
    ((put found key value).map Prod.fst).Nodup := by
  by_cases hm : key ∈ found.map Prod.fst
  case pos =>
    have hf : (Prod.fst ∘ fun x : String × String => if x.1 = key then (key, value) else x) = Prod.fst := by
      funext x
      by_cases hx : x.1 = key <;> simp [hx]
    rw [put, if_pos hm, List.map_map, hf]
    exact h
  case neg =>
    rw [put, if_neg hm, List.map_append, List.map_singleton, ← List.concat_eq_append]
    exact List.Nodup.concat hm h

theorem nodup_putAll (h : (found.map Prod.fst).Nodup) : ((putAll found lines).map Prod.fst).Nodup := by
  induction lines generalizing found
  case nil => exact h
  case cons x lines hi =>
    obtain ⟨key, line⟩ := x
    cases line
    case none   => exact hi h
    case some v => exact hi (nodup_put h)

-- A dictionary has each of its keys once.
theorem nodup_wanted : ((wanted doc).map Prod.fst).Nodup :=
  nodup_putAll List.nodup_nil

theorem lookup_wanted : (wanted doc).lookup item = some text ↔ (item, text) ∈ wanted doc :=
  JsonValue.lookup_eq_some_iff_mem nodup_wanted

section DerivedRow

theorem old_spec (h : s.old item = some p) : p ∈ s.rows ∧ p.derived ∧ p.item = item := by
  have hs := List.find?_some h
  have hm := List.mem_of_find?_eq_some h
  exact ⟨List.mem_reverse.mp hm, by simpa using hs⟩

variable (s item text time) in
theorem derivedRow_eq : (∃ old, s.old item = some old ∧ old.text = text ∧
    derivedRow item text (s.old item) time = old) ∨
    derivedRow item text (s.old item) time = ⟨"auto-" ++ item.replace "/" "-", item, text, "ledger", time, true⟩ := by
  cases ho : s.old item
  case none => exact .inr rfl
  case some old =>
    by_cases ht : old.text = text
    case pos => exact .inl ⟨old, rfl, ht, by simp [derivedRow, Option.filter, ht]⟩
    case neg => exact .inr (by simp [derivedRow, Option.filter, ht])

@[simp]
theorem derivedRow_item : (derivedRow item text (s.old item) time).item = item := by
  obtain ⟨old, ho, _, he⟩ | he := derivedRow_eq s item text time
  case inl => rw [he, (old_spec ho).right.right]
  case inr => rw [he]

@[simp]
theorem derivedRow_text : (derivedRow item text (s.old item) time).text = text := by
  obtain ⟨old, _, ht, he⟩ | he := derivedRow_eq s item text time
  case inl => rw [he, ht]
  case inr => rw [he]

@[simp]
theorem derivedRow_derived : (derivedRow item text (s.old item) time).derived = true := by
  obtain ⟨old, ho, _, he⟩ | he := derivedRow_eq s item text time
  case inl => rw [he, (old_spec ho).right.left]
  case inr => rw [he]

-- A row with the ask's text stays as it is.
theorem derivedRow_some (h : row.text = text) : derivedRow item text (some row) time = row := by
  simp [derivedRow, Option.filter, h]

end DerivedRow

section Derive

@[simp]
theorem derive_rows : (s.derive time).rows = s.manual ++ s.derivedRows time :=
  rfl

theorem mem_manual : p ∈ s.manual ↔ p ∈ s.rows ∧ ¬ p.derived ∧ p.item ∉ outOfScope s.doc := by
  simp [Ledger.manual]

theorem mem_derivedRows : p ∈ s.derivedRows time ↔ ∃ item text, (item, text) ∈ wanted s.doc ∧
    item ∉ s.manual.map (·.item) ∧ s.kept.lookup item = none ∧ derivedRow item text (s.old item) time = p := by
  simp only [Ledger.derivedRows, List.mem_map, List.mem_filter, decide_eq_true_eq, Prod.exists, and_assoc]

theorem lookup_kept : s.kept.lookup item = some text ↔
    s.dismissed.lookup item = some text ∧ (wanted s.doc).lookup item = some text := by
  simp [Ledger.kept, KeyTable.lookup_filter]

theorem items_derivedRows : (s.derivedRows time).map (·.item) = ((wanted s.doc).filter fun x =>
    x.1 ∉ s.manual.map (·.item) ∧ s.kept.lookup x.1 = none).map Prod.fst := by
  rw [Ledger.derivedRows, List.map_map]
  exact List.map_congr_left fun x _ => derivedRow_item

theorem nodup_derivedRows : ((s.derivedRows time).map (·.item)).Nodup := by
  rw [items_derivedRows]
  exact nodup_wanted.sublist (List.filter_sublist.map _)

theorem derived_of_mem (h : p ∈ s.derivedRows time) : p.derived = true := by
  obtain ⟨item, text, _, _, _, rfl⟩ := mem_derivedRows.mp h
  exact derivedRow_derived

-- No derived row stands beside a row that was added by hand.
theorem not_held (h : p ∈ s.derivedRows time) : p.item ∉ s.manual.map (·.item) := by
  obtain ⟨item, text, _, hh, _, rfl⟩ := mem_derivedRows.mp h
  rw [derivedRow_item]
  exact hh

theorem waits_of_mem (h : p ∈ s.derivedRows time) : (wanted s.doc).lookup p.item = some p.text := by
  obtain ⟨item, text, hm, _, _, rfl⟩ := mem_derivedRows.mp h
  rw [derivedRow_item, derivedRow_text]
  exact lookup_wanted.mpr hm

-- The derived rows are those of the asks that wait, are not dismissed as they are and have no row by hand.
theorem shown_iff : (∃ p ∈ s.derivedRows time, p.item = item) ↔ ∃ text,
    (wanted s.doc).lookup item = some text ∧ item ∉ s.manual.map (·.item) ∧ s.dismissed.lookup item ≠ some text := by
  constructor
  case mp =>
    rintro ⟨p, hp, rfl⟩
    obtain ⟨item, text, hm, hh, hk, rfl⟩ := mem_derivedRows.mp hp
    rw [derivedRow_item]
    refine ⟨text, lookup_wanted.mpr hm, hh, fun hd => ?_⟩
    have hs : s.kept.lookup item = some text := lookup_kept.mpr ⟨hd, lookup_wanted.mpr hm⟩
    exact absurd (hk.symm.trans hs) (by simp)
  case mpr =>
    rintro ⟨text, hw, hh, hd⟩
    refine ⟨_, mem_derivedRows.mpr ⟨item, text, lookup_wanted.mp hw, hh, ?_, rfl⟩, derivedRow_item⟩
    cases hk : s.kept.lookup item
    case none   => rfl
    case some t =>
      have ht := lookup_kept.mp hk
      have he : t = text := Option.some.inj (ht.right.symm.trans hw)
      exact absurd (he ▸ ht.left) hd

end Derive

section Again

variable {b : Bool} {time' : ℕ}

-- A ledger whose rows have just been derived, with any flag.
def Ledger.flagged (s : Ledger) (time : ℕ) (b : Bool) : Ledger :=
  { s.derive time with dirty := b }

theorem manual_flagged : (s.flagged time b).manual = s.manual := by
  have hd : (s.derivedRows time).filter (fun p => ¬ p.derived ∧ p.item ∉ outOfScope s.doc) = [] := by
    rw [List.filter_eq_nil_iff]
    exact fun p hp => by simp [derived_of_mem hp]
  have hm : s.manual.filter (fun p => ¬ p.derived ∧ p.item ∉ outOfScope s.doc) = s.manual := by
    rw [List.filter_eq_self]
    exact fun p hp => by simpa using (mem_manual.mp hp).right
  change (s.manual ++ s.derivedRows time).filter (fun p => ¬ p.derived ∧ p.item ∉ outOfScope s.doc) = s.manual
  rw [List.filter_append, hd, hm, List.append_nil]

theorem kept_flagged : (s.flagged time b).kept = s.kept := by
  change s.kept.filter (fun item text => (wanted s.doc).lookup item = some text) = s.kept
  exact KeyTable.filter_filter

theorem old_flagged (h : p ∈ s.derivedRows time) : (s.flagged time b).old p.item = some p := by
  have hr : ∀ q ∈ (s.flagged time b).rows, q.derived → q ∈ s.derivedRows time := by
    intro q hq hd
    obtain hq | hq := List.mem_append.mp hq
    case inl => exact absurd hd (mem_manual.mp hq).right.left
    case inr => exact hq
  cases ho : (s.flagged time b).old p.item
  case none =>
    have hn := List.find?_eq_none.mp ho p (List.mem_reverse.mpr (List.mem_append_right _ h))
    simp [derived_of_mem h] at hn
  case some q =>
    obtain ⟨hm, hd, hi⟩ := old_spec ho
    have he : q = p := List.inj_on_of_nodup_map nodup_derivedRows (hr q hm hd) h hi
    rw [he]

-- Every derived row is found again by its item, with the text that it still has.
theorem derivedRows_flagged : (s.flagged time b).derivedRows time' = s.derivedRows time := by
  change ((wanted s.doc).filter fun x => x.1 ∉ (s.flagged time b).manual.map (·.item) ∧
    (s.flagged time b).kept.lookup x.1 = none).map _ = _
  rw [manual_flagged, kept_flagged, Ledger.derivedRows]
  refine List.map_congr_left fun x hx => ?_
  have hm : derivedRow x.1 x.2 (s.old x.1) time ∈ s.derivedRows time := List.mem_map_of_mem hx
  have ho := old_flagged (b := b) hm
  rw [derivedRow_item] at ho
  rw [ho, derivedRow_some derivedRow_text]

theorem derive_flagged : (s.flagged time b).derive time' = s.flagged time b := by
  have hr : (s.flagged time b).manual ++ (s.flagged time b).derivedRows time' = (s.flagged time b).rows := by
    rw [manual_flagged, derivedRows_flagged]
    rfl
  have hc : (s.flagged time b).rows.filter (fun p => ¬ p.derived ∧ p.item ∈ outOfScope s.doc) = [] := by
    rw [List.filter_eq_nil_iff]
    intro p hp
    obtain hp | hp := List.mem_append.mp hp
    case inl => simpa using fun _ => (mem_manual.mp hp).right.right
    case inr => simp [derived_of_mem hp]
  have hk : (s.flagged time b).kept = (s.flagged time b).dismissed := kept_flagged
  rw [Ledger.derive, hr, hk]
  change Ledger.mk _ _ _ (_ ++ ((s.flagged time b).rows.filter
    (fun p => ¬ p.derived ∧ p.item ∈ outOfScope s.doc)).map _) _ _ = _
  rw [hc]
  simp

end Again

section Clear

theorem lookup_dismiss : (Ledger.dismiss found dismissed row).lookup item =
    if row.item = item then (found.lookup item).or (dismissed.lookup item) else dismissed.lookup item := by
  rw [Ledger.dismiss]
  by_cases h : row.item = item
  case pos =>
    rw [if_pos h, h]
    cases found.lookup item <;> simp
  case neg =>
    rw [if_neg h]
    cases found.lookup row.item
    case none   => rfl
    case some t => exact AList.lookup_insert_ne (Ne.symm h)

-- A clear dismisses only asks as they are now.
theorem lookup_dismiss_of_stays (h : ∀ t, found.lookup item = some t → t = text)
    (hd : dismissed.lookup item = some text) : (rows.foldl (Ledger.dismiss found) dismissed).lookup item = some text := by
  induction rows generalizing dismissed
  case nil => exact hd
  case cons row rows hi =>
    refine hi ?_
    rw [lookup_dismiss, hd]
    cases hf : found.lookup item
    case none   => simp
    case some t => simp [h t hf]

theorem lookup_dismiss_of_mem (h : row ∈ rows) (hf : found.lookup row.item = some text) :
    (rows.foldl (Ledger.dismiss found) dismissed).lookup row.item = some text := by
  have hs : ∀ t, found.lookup row.item = some t → t = text := fun t ht => Option.some.inj (ht.symm.trans hf)
  induction rows generalizing dismissed
  case nil => cases h
  case cons first rows hi =>
    rw [List.foldl_cons]
    obtain rfl | h := List.mem_cons.mp h
    case inr => exact hi h
    case inl =>
      refine lookup_dismiss_of_stays hs ?_
      rw [lookup_dismiss, if_pos rfl, hf, Option.some_or]

theorem clear_dismisses (h : row ∈ s.gone target time) (hw : (wanted s.doc).lookup row.item = some text) :
    (s.clear target author reason time).dismissed.lookup row.item = some text := by
  have hg : s.gone target time ≠ [] := List.ne_nil_of_mem h
  rw [Ledger.clear, if_neg hg]
  exact lookup_dismiss_of_mem h hw

theorem clear_keeps (h : ∀ t, (wanted s.doc).lookup item = some t → t = text)
    (hd : s.dismissed.lookup item = some text) :
    (s.clear target author reason time).dismissed.lookup item = some text := by
  rw [Ledger.clear]
  by_cases hg : s.gone target time = []
  case neg =>
    rw [if_neg hg]
    exact lookup_dismiss_of_stays h hd
  case pos =>
    rw [if_pos hg]
    by_cases ht : target = "all"
    case pos => rwa [if_pos ht]
    case neg => rwa [if_neg ht]

theorem clear_rows : (s.clear target author reason time).rows.Sublist s.rows := by
  rw [Ledger.clear]
  by_cases hg : s.gone target time = []
  case neg =>
    rw [if_neg hg]
    exact List.filter_sublist
  case pos =>
    rw [if_pos hg]
    by_cases ht : target = "all"
    case pos => rw [if_pos ht]
    case neg => rw [if_neg ht]

end Clear

section Runs

-- The ask of the item waits with this text whenever rows are derived, and no clear finds it with another one.
def Steady (item text : String) (s : Ledger) : Event → Prop
  | .derive _    => (wanted s.doc).lookup item = some text
  | .clear _ _ _ _ => ∀ t, (wanted s.doc).lookup item = some t → t = text
  | _            => True

theorem add_cases {id list itemId : String} : (s.add id list itemId text author time).dismissed = s.dismissed ∧
    ((s.add id list itemId text author time).rows = s.rows ∨
      (s.add id list itemId text author time).rows =
        (s.place id (path list itemId) (Text.strip text) author time).rows) := by
  rw [Ledger.add]
  cases (Ledger.listed s.doc list).lookup itemId with
  | none   => exact ⟨rfl, .inl rfl⟩
  | some b =>
    cases b
    case true  => exact ⟨rfl, .inl rfl⟩
    case false => exact ⟨rfl, .inr rfl⟩

theorem step_dismissed (h : Steady item text s e) (hd : s.dismissed.lookup item = some text) :
    (step s e).dismissed.lookup item = some text := by
  cases e with
  | update doc                          => exact hd
  | decided phaseId                     => exact hd
  | escalate id place text author time  => exact hd
  | add id list itemId text author time => exact (congrArg _ add_cases.left).trans hd
  | clear target author reason time     => exact clear_keeps h hd
  | derive time                         => exact lookup_kept.mpr ⟨hd, h⟩

theorem run_dismissed (h : Along step (Steady item text) s es) (hd : s.dismissed.lookup item = some text) :
    (run step s es).dismissed.lookup item = some text :=
  h.invariant (I := fun s : Ledger => s.dismissed.lookup item = some text) (fun _ _ hd h => step_dismissed h hd) hd

def OneEach (rows : List Row) : Prop :=
  (rows.map (·.item)).Nodup

theorem place_oneEach {id : String} (h : OneEach s.rows) : OneEach (s.place id item text author time).rows := by
  have hf : OneEach (s.rows.filter (·.item ≠ item)) := h.sublist (List.filter_sublist.map _)
  have hn : item ∉ (s.rows.filter (·.item ≠ item)).map (·.item) := by simp
  rw [OneEach, Ledger.place, List.map_append, List.map_singleton, ← List.concat_eq_append]
  exact List.Nodup.concat hn hf

theorem derive_oneEach (h : OneEach s.rows) : OneEach (s.derive time).rows := by
  rw [OneEach, derive_rows, List.map_append]
  refine List.nodup_append.mpr ⟨h.sublist (List.filter_sublist.map _), nodup_derivedRows, ?_⟩
  rintro a ha b hb rfl
  obtain ⟨p, hp, rfl⟩ := List.mem_map.mp hb
  exact not_held hp ha

theorem step_oneEach (h : OneEach s.rows) : OneEach (step s e).rows := by
  cases e with
  | update doc                          => exact h
  | decided phaseId                     => exact h.sublist (List.filter_sublist.map _)
  | escalate id item text author time   => exact place_oneEach h
  | clear target author reason time     => exact h.sublist (clear_rows.map _)
  | derive time                         => exact derive_oneEach h
  | add id list itemId text author time =>
    obtain he | he := (add_cases (s := s)).right
    case inl => exact he.symm ▸ h
    case inr => exact he.symm ▸ place_oneEach h

theorem run_oneEach (h : OneEach s.rows) : OneEach (run step s es).rows :=
  (Along.of_forall (P := fun _ _ => True) fun _ _ => trivial).invariant (I := fun s : Ledger => OneEach s.rows)
    (fun _ _ h _ => step_oneEach h) h

end Runs

-- What a derivation leaves: the rows added by hand whose item is in scope, and at most one row of every other ask that
-- waits and is not dismissed as it is.
structure Settled (s : Ledger) (time : ℕ) : Prop where
  one    : OneEach ((s.derive time).rows.filter (·.derived))
  waits  : ∀ p ∈ (s.derive time).rows, p.derived → (wanted s.doc).lookup p.item = some p.text
  byHand : ∀ p, p ∈ (s.derive time).rows ∧ ¬ p.derived ↔ p ∈ s.rows ∧ ¬ p.derived ∧ p.item ∉ outOfScope s.doc
  shown  : ∀ item, (∃ p ∈ (s.derive time).rows, p.derived ∧ p.item = item) ↔ ∃ text,
    (wanted s.doc).lookup item = some text ∧ (∀ p ∈ (s.derive time).rows, ¬ p.derived → p.item ≠ item) ∧
      s.dismissed.lookup item ≠ some text
  again  : ∀ time' b, { s.derive time with dirty := b }.derive time' = { s.derive time with dirty := b }

section Settled

theorem mem_derive_derived : p ∈ (s.derive time).rows ∧ p.derived ↔ p ∈ s.derivedRows time := by
  rw [derive_rows, List.mem_append]
  constructor
  case mp =>
    rintro ⟨hm | hm, hd⟩
    case inl => exact absurd hd (mem_manual.mp hm).right.left
    case inr => exact hm
  case mpr => exact fun h => ⟨.inr h, derived_of_mem h⟩

variable (time) in
theorem mem_derive_byHand : p ∈ (s.derive time).rows ∧ ¬ p.derived ↔ p ∈ s.manual := by
  rw [derive_rows, List.mem_append]
  constructor
  case mp =>
    rintro ⟨hm | hm, hd⟩
    case inl => exact hm
    case inr => exact absurd (derived_of_mem hm) hd
  case mpr => exact fun h => ⟨.inl h, (mem_manual.mp h).right.left⟩

theorem derive_derived : (s.derive time).rows.filter (·.derived) = s.derivedRows time := by
  have hm : s.manual.filter (·.derived) = [] := by
    rw [List.filter_eq_nil_iff]
    exact fun p hp => (mem_manual.mp hp).right.left
  have hd : (s.derivedRows time).filter (·.derived) = s.derivedRows time := by
    rw [List.filter_eq_self]
    exact fun p hp => derived_of_mem hp
  rw [derive_rows, List.filter_append, hm, hd, List.nil_append]

variable (time) in
theorem not_held_iff : item ∉ s.manual.map (·.item) ↔
    ∀ p ∈ (s.derive time).rows, ¬ p.derived → p.item ≠ item := by
  rw [List.mem_map]
  constructor
  case mp  => exact fun h p hp hd he => h ⟨p, (mem_derive_byHand time).mp ⟨hp, hd⟩, he⟩
  case mpr =>
    rintro h ⟨p, hp, he⟩
    have hm := (mem_derive_byHand time).mpr hp
    exact h p hm.left hm.right he

theorem settled : Settled s time where
  one := by
    rw [derive_derived]
    exact nodup_derivedRows
  waits p hp hd := waits_of_mem (mem_derive_derived.mp ⟨hp, hd⟩)
  byHand p := (mem_derive_byHand time).trans mem_manual
  shown item := by
    have hs : (∃ p ∈ (s.derive time).rows, p.derived ∧ p.item = item) ↔ ∃ p ∈ s.derivedRows time, p.item = item :=
      exists_congr fun p => by rw [← and_assoc, mem_derive_derived]
    rw [hs, shown_iff, not_held_iff time]
  again _ _ := derive_flagged

end Settled

-- In every run: what each derivation leaves, and that a dismissed ask stays away for as long as it is found as it was.
theorem priorities_stable (s : Ledger) (es : List Event) (time : ℕ) :
    Settled (run step s es) time ∧ (OneEach s.rows → OneEach ((run step s es).derive time).rows) ∧
    ∀ target author reason cleared row text, row ∈ s.gone target cleared →
      (wanted s.doc).lookup row.item = some text →
      Along step (Steady row.item text) (s.clear target author reason cleared) (es ++ [.derive time]) →
      ∀ p ∈ (run step (s.clear target author reason cleared) (es ++ [.derive time])).rows,
        p.derived → p.item ≠ row.item := by
  refine ⟨settled, fun h => derive_oneEach (run_oneEach h), ?_⟩
  rintro target author reason cleared row text hr hw ha p hp hd he
  obtain ⟨ha, hs⟩ := Along.append.mp ha
  rw [run_concat] at hp
  have hk := run_dismissed ha (clear_dismisses hr hw)
  obtain ⟨t, ht, _, hn⟩ := (settled.shown row.item).mp ⟨p, hp, hd, he⟩
  have htt : t = text := Option.some.inj (ht.symm.trans hs.left)
  exact hn (htt ▸ hk)

section Blocked

-- A task that is blocked or done, with a row that an agent added on it.
def taskIn (state : String) : Doc :=
  { questions := [], phases := [], followups := []
    tasks     := [⟨"t", "Ship it", state, "", false, []⟩] }

def asked : Ledger :=
  ⟨taskIn "blocked", [⟨"p", "tasks/t", "look at this", "worker", 0, false⟩], ∅, [], [], false⟩

theorem priorities_stable_blocked : OneEach ((run step asked [.derive 1]).derive 2).rows ∧
    ∀ p ∈ (run step (asked.clear "tasks/t" "operator" none 0) ([.derive 1] ++ [.derive 2])).rows,
      p.derived → p.item ≠ "tasks/t" :=
  have h := (priorities_stable asked [.derive 1] 2).right
  ⟨h.left (List.nodup_singleton _), h.right "tasks/t" "operator" none 0 ⟨"p", "tasks/t", "look at this", "worker", 0, false⟩
    "Blocked: Ship it" (by decide) (by decide) ⟨rfl, rfl, trivial⟩⟩

-- The ask returns with the text that was dismissed once it went away in between, and a row that an agent added stays on
-- a task that waits on nobody.
theorem dismissed_ask_returns :
    (wanted (taskIn "blocked")).lookup "tasks/t" = some "Blocked: Ship it" ∧
    (run step asked [.clear "tasks/t" "operator" none 0, .derive 1]).rows = [] ∧
    ((run step asked [.clear "tasks/t" "operator" none 0, .derive 1, .update (taskIn "done"), .derive 2,
      .update (taskIn "blocked"), .derive 3]).rows.map fun p => (p.item, p.text)) = [("tasks/t", "Blocked: Ship it")] ∧
    wanted (taskIn "done") = [] ∧
    ((run step asked [.update (taskIn "done"), .derive 1]).rows.map (·.item)) = ["tasks/t"] := by
  decide

end Blocked

end Priorities
