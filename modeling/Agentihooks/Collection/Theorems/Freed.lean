import Agentihooks.Collection.Theorems.Safe

namespace Collection

open Ingest (Scope)

section Writes

variable {sha256 : Bytes → String} {c c' : Catalog} {s : State} {e : Event} {d domain : String}

-- All that a step may do to the reservations.
inductive Writes (c : Catalog) : Catalog → Prop
  | same {c₁ : Catalog} (h : c₁.reservations = c.reservations) : Writes c c₁
  | reserve (key : String × String) (row : Reservation) (hn : c.reservations.lookup key = none)
    (hc : ¬c.collecting row.objectDigest) (hr : row.state = .reserved) :
    Writes c { c with reservations := c.reservations.insert key row }
  | release (key : String × String) (row : Reservation) (hk : c.reservations.lookup key = some row)
    (hr : row.state = .reserved) : Writes c { c with reservations := c.reservations.erase key }
  | settle (d : String) : Writes c (c.settle d)
  | drop (d : String) : Writes c (c.dropDigest d)
  | mark (plan : Plan) (d : String) (h : Owned c plan d) : Writes c (c.mark d)

theorem writes_commit {q : Commit} {files : Dict String Bytes} : Writes c (q.turn sha256 files c).2 := by
  unfold Commit.turn
  split
  case h_1 =>
    split
    case h_1      => exact .same rfl
    case h_2 c hr =>
      obtain ⟨r, hk, hstate, _, rfl⟩ := release_ok hr
      exact .release _ r hk hstate
  case h_2 => split <;> exact .same rfl
  case h_3 =>
    split
    case h_1        => exact .same rfl
    case h_2 _ c hr =>
      obtain rfl | ⟨_, rfl⟩ := archive_ok hr
      · exact .same rfl
      · exact .same rfl
  case h_4 => exact .same rfl

theorem writes_collect {q : Collect} {files : Dict String Bytes} {answer : Answer} :
    Writes c (q.turn sha256 answer files c).2.2 := by
  unfold Collect.turn
  split
  case h_6 found name rest _ =>
    change Writes c (q.next c found name rest).2
    unfold Collect.next
    split
    case isTrue  =>
      split
      case isTrue  => exact .settle name
      case isFalse => exact .same rfl
    case isFalse => split <;> exact .same rfl
  case h_7 found name size stage rest _ =>
    cases stage with
    | claim =>
      simp only [Collect.upload, Catalog.claim]
      by_cases href : c.referenced answer.references name
      case pos =>
        rw [if_pos href]
        exact .settle name
      case neg =>
        rw [if_neg href]
        cases ho : c.owner q.plan name with
        | some reason => exact .same rfl
        | none        => exact .mark q.plan name (owned_of_owner ho)
    | unlink =>
      simp only [Collect.upload]
      split <;> exact .same rfl
    | drop rebound => exact .drop name
    | check        => exact .same rfl
    | recheck      => exact .same rfl
  all_goals exact .same rfl

theorem writes_step (sha256 : Bytes → String) (s : State) (e : Event) : Writes s.catalog (step sha256 s e).catalog := by
  unfold step
  split
  case h_1 => split <;> exact .same rfl
  case h_2 => exact .same rfl
  case h_3 =>
    split
    case h_1      => exact .same rfl
    case h_2 c hr =>
      obtain rfl | ⟨hcollecting, hn, rfl⟩ := reserve_ok hr
      · exact .same rfl
      · exact .reserve _ _ hn hcollecting rfl
  case h_4 => unfold State.start; split <;> exact .same rfl
  case h_5 => unfold State.start; split <;> exact .same rfl
  case h_6 =>
    split
    · exact .same rfl
    · exact writes_commit
    · exact writes_collect
  case h_7 => split <;> exact .same rfl

theorem Writes.uniform (h : Writes c c') (hc : c.Uniform) : c'.Uniform := by
  cases h with
  | same h                     => exact Uniform.of_subset hc fun k r hk => h ▸ hk
  | reserve key row hn hfree hr => exact hc.insert hn hfree hr
  | release key row hk hr      => exact Uniform.of_subset hc fun k r h => (Finmap.lookup_erase_eq_some.mp h).right
  | settle d                   => exact Uniform.of_subset hc fun k r h => (lookup_settle.mp h).left
  | drop d                     => exact Uniform.of_subset hc fun k r h => (lookup_dropDigest.mp h).left
  | mark plan d h              => exact h.uniform_mark hc

-- A digest that is collected for a domain.
def Stuck (c : Catalog) (d domain : String) : Prop :=
  ∃ k r, c.reservations.lookup k = some r ∧ r.objectDigest = d ∧ r.state = .collecting ∧ k.1 = domain

theorem Stuck.writes (hs : Stuck c d domain) (h : Writes c c') : ¬c'.collecting d ∨ Stuck c' d domain := by
  obtain ⟨k, r, hk, hd, hr, hdomain⟩ := hs
  cases h with
  | same h                      => exact .inr ⟨k, r, h ▸ hk, hd, hr, hdomain⟩
  | reserve key row hn hfree _  =>
    refine .inr ⟨k, r, (Finmap.lookup_insert_of_ne _ ?_).trans hk, hd, hr, hdomain⟩
    rintro rfl
    cases hn.symm.trans hk
  | release key row hk' hr'     =>
    refine .inr ⟨k, r, Finmap.lookup_erase_eq_some.mpr ⟨?_, hk⟩, hd, hr, hdomain⟩
    rintro rfl
    obtain rfl := Option.some.inj (hk.symm.trans hk')
    cases hr.symm.trans hr'
  | settle e                    =>
    by_cases he : r.objectDigest = e
    case pos => exact .inl (hd.symm.trans he ▸ not_collecting_settle)
    case neg => exact .inr ⟨k, r, lookup_settle.mpr ⟨hk, fun h => he h.left⟩, hd, hr, hdomain⟩
  | drop e                      =>
    by_cases he : r.objectDigest = e
    case pos => exact .inl (hd.symm.trans he ▸ not_collecting_dropDigest)
    case neg => exact .inr ⟨k, r, lookup_dropDigest.mpr ⟨hk, he⟩, hd, hr, hdomain⟩
  | mark plan e h               =>
    refine .inr ⟨k, _, lookup_mark.mpr ⟨r, hk, rfl⟩, ?_, ?_, hdomain⟩
    · split <;> exact hd
    · split
      · rfl
      · exact hr

end Writes

section Ahead

variable {sha256 : Bytes → String} {c : Catalog} {files : Dict String Bytes} {s : State} {e : Event} {es : List Event}
variable {id : ℕ} {plan : Plan} {q : Collect} {answer : Answer} {d domain : String}

def Intact (sha256 : Bytes → String) (files : Dict String Bytes) : Prop :=
  ∀ d data, files.lookup d = some data → sha256 data = d

theorem Intact.insert {data : Bytes} (h : Intact sha256 files) : Intact sha256 (files.insert (sha256 data) data) := by
  intro d found hd
  by_cases hk : d = sha256 data
  case pos =>
    subst hk
    rw [Option.some.inj ((Finmap.lookup_insert _).symm.trans hd)]
  case neg => exact h d found ((Finmap.lookup_insert_of_ne _ hk).symm.trans hd)

theorem Intact.erase (h : Intact sha256 files) : Intact sha256 (files.erase d) :=
  fun e data hd => h e data (Finmap.lookup_erase_eq_some.mp hd).right

theorem files_collect (sha256 : Bytes → String) (q : Collect) (answer : Answer) (files : Dict String Bytes) (c : Catalog) :
    (q.turn sha256 answer files c).2.1 = files ∨ ∃ d, q.stage.holds d ∧ (q.turn sha256 answer files c).2.1 = files.erase d := by
  unfold Collect.turn
  split
  case h_7 found name size stage rest hstage =>
    cases stage with
    | claim =>
      simp only [Collect.upload]
      split <;> exact .inl rfl
    | unlink =>
      simp only [Collect.upload]
      split
      case isTrue  => exact .inr ⟨name, by rw [hstage]; exact rfl, rfl⟩
      case isFalse => exact .inl rfl
    | drop rebound => exact .inl rfl
    | check        => exact .inl rfl
    | recheck      => exact .inl rfl
  all_goals exact .inl rfl

-- All that a step may do to the objects.
theorem files_step (sha256 : Bytes → String) (s : State) (e : Event) : (step sha256 s e).files = s.files ∨
    (∃ data, (step sha256 s e).files = s.files.insert (sha256 data) data) ∨
    ∃ id p d, s.processes.lookup id = some p ∧ p.holds d ∧ (step sha256 s e).files = s.files.erase d := by
  unfold step
  split
  case h_1 data =>
    split
    case isTrue  => exact .inr (.inl ⟨data, rfl⟩)
    case isFalse => exact .inl rfl
  case h_2 => exact .inl rfl
  case h_3 => split <;> exact .inl rfl
  case h_4 => unfold State.start; split <;> exact .inl rfl
  case h_5 => unfold State.start; split <;> exact .inl rfl
  case h_6 id answer =>
    split
    case h_1      => exact .inl rfl
    case h_2      => exact .inl rfl
    case h_3 q hq =>
      obtain hf | ⟨d, hh, hf⟩ := files_collect sha256 q answer s.files s.catalog
      · exact .inl hf
      · exact .inr (.inr ⟨id, _, d, hq, hh, hf⟩)
  case h_7 => split <;> exact .inl rfl

theorem Intact.step (h : Intact sha256 s.files) : Intact sha256 (step sha256 s e).files := by
  obtain hf | ⟨data, hf⟩ | ⟨id, p, d, _, _, hf⟩ := files_step sha256 s e
  · exact hf ▸ h
  · exact hf ▸ h.insert
  · exact hf ▸ h.erase

-- A collection that has not come to the digest yet, or is at it.
def CollectStage.ahead (d : String) : CollectStage → Prop
  | .walk | .archived _ | .reserved _ _ | .dead => True
  | .references _ _ listed                      => d ∈ listed
  | .names _ rest                               => d ∈ rest
  | .upload _ name _ _ rest                     => name = d ∨ d ∈ rest
  | .done                                       => False

theorem Stuck.collecting (h : Stuck c d domain) : c.collecting d := by
  obtain ⟨k, r, hk, hd, hr, _⟩ := h
  exact ⟨k, r, hk, hd, hr⟩

theorem Stuck.mem_reservedDigests (h : Stuck c d domain) : d ∈ c.reservedDigests domain := by
  obtain ⟨k, r, hk, rfl, _, rfl⟩ := h
  rw [Catalog.reservedDigests, Finset.mem_biUnion]
  exact ⟨k, Finset.mem_filter.mpr ⟨Finmap.mem_keys.mpr (Finmap.mem_of_lookup_eq_some hk), rfl⟩, by simp [hk]⟩

theorem Stuck.owner (hu : c.Uniform) (h : Stuck c d plan.corpus) : c.owner plan d = none := by
  obtain ⟨k, r, hk, hd, hr, hdomain⟩ := h
  have hall {k' : String × String} {r' : Reservation} (hk' : c.reservations.lookup k' = some r') (hd' : r'.objectDigest = d) :
      r'.state = .collecting ∧ k'.1 = plan.corpus := by
    obtain ⟨hstate, hkey⟩ := hu k r k' r' hk hk' (hd.trans hd'.symm) hr
    exact ⟨hstate, hkey.trans hdomain⟩
  unfold Catalog.owner
  rw [if_neg (not_not.mpr ⟨k, r, hk, hd, trivial⟩), if_neg, if_neg]
  · rintro ⟨k', r', hk', hd', hstate, _⟩
    cases (hall hk' hd').left.symm.trans hstate
  · rintro ⟨k', r', hk', hd', hne⟩
    exact hne (hall hk' hd').right

theorem next_ahead {found : Found} {name : String} {rest : List String} (hu : c.Uniform) (hs : Stuck c d q.plan.corpus)
    (hd : q.plan.destructive = true) (ha : d ∈ name :: rest) :
    ¬(q.next c found name rest).2.collecting d ∨ (q.next c found name rest).1.stage.ahead d := by
  unfold Collect.next
  obtain rfl | hrest := List.mem_cons.mp ha
  case inl =>
    split
    case isTrue  =>
      rw [if_pos ⟨hd, hs.collecting⟩]
      exact .inl not_collecting_settle
    case isFalse =>
      rw [hs.owner hu]
      exact .inr (.inl rfl)
  case inr =>
    split
    case isTrue  => split <;> exact .inr hrest
    case isFalse =>
      split
      case h_1 => exact .inr hrest
      case h_2 => exact .inr (.inr hrest)

theorem check_ahead {found : Found} {name : String} {rest : List String} (hi : Intact sha256 files)
    (hd : q.plan.destructive = true) (ha : name = d ∨ d ∈ rest) : (q.check sha256 files found name rest).stage.ahead d := by
  unfold Collect.check
  extract_lets claims
  have hclaims (size : ℕ) : (claims size).stage.ahead d := by
    unfold claims
    rw [if_pos hd]
    exact ha
  split
  case isTrue  => exact hclaims 0
  case isFalse =>
    split
    case h_1         => trivial
    case h_2 data hl =>
      rw [if_neg (not_not.mpr (hi name data hl))]
      exact hclaims data.length

theorem upload_ahead {references : Finset String} {found : Found} {name : String} {size : ℕ} {rest : List String}
    {stage : UploadStage} (hu : c.Uniform) (hi : Intact sha256 files) (hs : Stuck c d q.plan.corpus)
    (hd : q.plan.destructive = true) (ha : name = d ∨ d ∈ rest) :
    ¬(q.upload sha256 files c references found name size rest stage).2.2.collecting d ∨
      (q.upload sha256 files c references found name size rest stage).1.stage.ahead d := by
  cases stage with
  | check        => exact .inr (check_ahead hi hd ha)
  | claim        =>
    simp only [Collect.upload, Catalog.claim]
    by_cases href : c.referenced references name
    case pos =>
      rw [if_pos href]
      obtain rfl | hrest := ha
      · exact .inl not_collecting_settle
      · exact .inr hrest
    case neg =>
      rw [if_neg href]
      cases ho : c.owner q.plan name with
      | none        => exact .inr ha
      | some reason =>
        obtain rfl | hrest := ha
        · cases (hs.owner hu).symm.trans ho
        · exact .inr hrest
  | recheck      => exact .inr ha
  | unlink       =>
    simp only [Collect.upload]
    split
    case isTrue  => exact .inr ha
    case isFalse => exact .inr trivial
  | drop rebound =>
    obtain rfl | hrest := ha
    · exact .inl not_collecting_dropDigest
    · cases rebound <;> exact .inr hrest

theorem turn_ahead (hu : c.Uniform) (hi : Intact sha256 files) (hs : Stuck c d q.plan.corpus)
    (hd : q.plan.destructive = true) (ha : q.stage.ahead d) :
    ¬(q.turn sha256 answer files c).2.2.collecting d ∨ (q.turn sha256 answer files c).1.stage.ahead d := by
  unfold Collect.turn
  cases hstage : q.stage with
  | walk                              => exact .inr trivial
  | archived walked                   => exact .inr trivial
  | reserved walked archived          => exact .inr hs.mem_reservedDigests
  | references walked archived reserved =>
    rw [hstage] at ha
    exact .inr ((Finset.mem_sort _).mpr (Finset.mem_union_right _ ha))
  | names found rest                  =>
    rw [hstage] at ha
    cases rest with
    | nil            => cases ha
    | cons name rest => exact next_ahead hu hs hd ha
  | upload found name size stage rest =>
    rw [hstage] at ha
    exact upload_ahead hu hi hs hd ha
  | done                              => exact absurd (hstage ▸ ha : CollectStage.ahead d .done) id
  | dead                              =>
    refine .inr ?_
    rw [hstage]
    trivial

def Coming (s : State) (id : ℕ) (plan : Plan) (d : String) : Prop :=
  ∃ q, s.processes.lookup id = some (.collect q) ∧ q.plan = plan ∧ q.stage.ahead d

theorem turn_plan : (q.turn sha256 answer files c).1.plan = q.plan := by
  unfold Collect.turn
  split
  case h_6 found name rest _ =>
    change (q.next c found name rest).1.plan = q.plan
    unfold Collect.next
    split
    case isTrue  => split <;> rfl
    case isFalse => split <;> rfl
  case h_7 found name size stage rest _ =>
    cases stage with
    | check        => exact check_plan.left
    | claim        => simp only [Collect.upload]; split <;> rfl
    | recheck      => rfl
    | unlink       => simp only [Collect.upload]; split <;> rfl
    | drop rebound => cases rebound <;> rfl
  all_goals rfl

theorem Coming.start {p : Process} {other : ℕ} (hc : Coming s id plan d) : Coming (s.start other p) id plan d := by
  obtain ⟨q, hq, hrest⟩ := hc
  unfold State.start
  split
  case isTrue     => exact ⟨q, hq, hrest⟩
  case isFalse hn =>
    refine ⟨q, (Finmap.lookup_insert_of_ne _ ?_).trans hq, hrest⟩
    rintro rfl
    exact hn (Finmap.mem_keys.mpr (Finmap.mem_of_lookup_eq_some hq))

-- Whatever step comes, the digest is freed or the collection still has it ahead.
theorem Coming.step (hc : Coming s id plan d) (hu : s.catalog.Uniform) (hi : Intact sha256 s.files)
    (hs : Stuck s.catalog d plan.corpus) (hd : plan.destructive = true) :
    ¬(step sha256 s e).catalog.collecting d ∨ Coming (step sha256 s e) id plan d := by
  obtain ⟨q, hq, rfl, ha⟩ := hc
  have hother {other : ℕ} {p : Process} {files : Dict String Bytes} {c : Catalog} (hne : id ≠ other) :
      Coming ⟨files, c, s.processes.insert other p⟩ id q.plan d :=
    ⟨q, (Finmap.lookup_insert_of_ne _ hne).trans hq, rfl, ha⟩
  unfold Collection.step
  split
  case h_1 => split <;> exact .inr ⟨q, hq, rfl, ha⟩
  case h_2 => exact .inr ⟨q, hq, rfl, ha⟩
  case h_3 => split <;> exact .inr ⟨q, hq, rfl, ha⟩
  case h_4 => exact .inr (Coming.start ⟨q, hq, rfl, ha⟩)
  case h_5 => exact .inr (Coming.start ⟨q, hq, rfl, ha⟩)
  case h_6 other answer =>
    by_cases hid : id = other
    case pos =>
      subst hid
      rw [hq]
      exact (turn_ahead hu hi hs hd ha).imp_right fun h => ⟨_, Finmap.lookup_insert _, turn_plan, h⟩
    case neg =>
      split
      case h_1 => exact .inr ⟨q, hq, rfl, ha⟩
      case h_2 => exact .inr (hother hid)
      case h_3 => exact .inr (hother hid)
  case h_7 other =>
    by_cases hid : id = other
    case pos =>
      subst hid
      rw [hq]
      exact .inr ⟨_, Finmap.lookup_insert _, rfl, trivial⟩
    case neg =>
      split
      case h_1 => exact .inr ⟨q, hq, rfl, ha⟩
      case h_2 => exact .inr (hother hid)

def Done (s : State) (id : ℕ) : Prop :=
  ∃ q, s.processes.lookup id = some (.collect q) ∧ q.stage = .done

-- A collection that gets done has freed every digest that it had ahead.
theorem Coming.freed (hc : Coming s id plan d) (hu : s.catalog.Uniform) (hi : Intact sha256 s.files)
    (hs : Stuck s.catalog d plan.corpus) (hd : plan.destructive = true)
    (hdone : Done (Run.run (Collection.step sha256) s es) id) :
    ∃ es₁, es₁ <+: es ∧ ¬(Run.run (Collection.step sha256) s es₁).catalog.collecting d := by
  induction es generalizing s
  case nil =>
    obtain ⟨q, hq, _, ha⟩ := hc
    obtain ⟨q', hq', hstage⟩ := hdone
    obtain rfl := Process.collect.inj (Option.some.inj (hq.symm.trans hq'))
    rw [hstage] at ha
    exact ha.elim
  case cons e es ih =>
    have hfreed (h : ¬(Collection.step sha256 s e).catalog.collecting d) :
        ∃ es₁, es₁ <+: e :: es ∧ ¬(Run.run (Collection.step sha256) s es₁).catalog.collecting d :=
      ⟨[e], List.prefix_append [e] es, h⟩
    obtain h | hs' := hs.writes (writes_step sha256 s e)
    case inl => exact hfreed h
    case inr =>
      obtain h | hc' := hc.step (e := e) hu hi hs hd
      case inl => exact hfreed h
      case inr =>
        obtain ⟨es₁, hprefix, hes⟩ := ih hc' ((writes_step sha256 s e).uniform hu) hi.step hs' hdone
        exact ⟨e :: es₁, (List.cons_prefix_cons).mpr ⟨rfl, hprefix⟩, hes⟩

end Ahead

section Alone

variable {sha256 : Bytes → String} {c : Catalog} {files : Dict String Bytes} {s : State}
variable {id : ℕ} {plan : Plan} {q : Collect} {answer : Answer} {d domain : String}

def UploadStage.left : UploadStage → ℕ
  | .check   => 6
  | .claim   => 5
  | .recheck => 4
  | .unlink  => 3
  | .drop _  => 2

-- A bound of the turns that a collection has still to take.
def CollectStage.left : CollectStage → ℕ
  | .names _ rest             => 7 * rest.length + 1
  | .upload _ _ _ stage rest  => 7 * rest.length + stage.left
  | _                         => 0

-- The walked files are all there, but for those that the collection has unlinked itself.
def CollectStage.sees (files : Dict String Bytes) : CollectStage → Prop
  | .names found rest                => rest.Nodup ∧ ∀ name ∈ rest, name ∈ found.files → (files.lookup name).isSome
  | .upload found name _ stage rest  => (name :: rest).Nodup ∧
    (∀ name ∈ rest, name ∈ found.files → (files.lookup name).isSome) ∧ match stage with
      | .drop _ => True
      | .unlink => (files.lookup name).isSome
      | _       => name ∈ found.files → (files.lookup name).isSome
  | .done                            => True
  | _                                => False

theorem sees_rest {found : Found} {name : String} {size : ℕ} {stage : UploadStage} {rest : List String}
    (h : CollectStage.sees files (.upload found name size stage rest)) : CollectStage.sees files (.names found rest) :=
  ⟨h.left.of_cons, h.right.left⟩

theorem next_sees {found : Found} {name : String} {rest : List String} (h : CollectStage.sees files (.names found (name :: rest))) :
    (q.next c found name rest).1.stage.sees files ∧
      (q.next c found name rest).1.stage.left < CollectStage.left (.names found (name :: rest)) := by
  have hrest : CollectStage.sees files (.names found rest) :=
    ⟨h.left.of_cons, fun other hmem => h.right other (List.mem_cons_of_mem _ hmem)⟩
  have hupload : CollectStage.sees files (.upload found name 0 .check rest) :=
    ⟨h.left, hrest.right, h.right name List.mem_cons_self⟩
  have hnames : CollectStage.left (.names found rest) < CollectStage.left (.names found (name :: rest)) := by
    simp [CollectStage.left]
  have hcheck : CollectStage.left (.upload found name 0 .check rest) < CollectStage.left (.names found (name :: rest)) := by
    simp only [CollectStage.left, UploadStage.left, List.length_cons]
    omega
  unfold Collect.next
  split
  case isTrue  =>
    split
    case isTrue  => exact ⟨hrest, hnames⟩
    case isFalse => exact ⟨hrest, hnames⟩
  case isFalse =>
    split
    case h_1 => exact ⟨hrest, hnames⟩
    case h_2 => exact ⟨hupload, hcheck⟩

theorem left_names_lt {found : Found} {name : String} {size : ℕ} {stage : UploadStage} {rest : List String} :
    CollectStage.left (.names found rest) < CollectStage.left (.upload found name size stage rest) := by
  cases stage <;> simp [CollectStage.left, UploadStage.left]

theorem check_sees {found : Found} {name : String} {size : ℕ} {rest : List String}
    (h : CollectStage.sees files (.upload found name size .check rest)) :
    (q.check sha256 files found name rest).stage.sees files ∧
      (q.check sha256 files found name rest).stage.left < CollectStage.left (.upload found name size .check rest) := by
  unfold Collect.check
  extract_lets claims
  have hclaims (size' : ℕ) : (claims size').stage.sees files ∧
      (claims size').stage.left < CollectStage.left (.upload found name size .check rest) := by
    unfold claims
    split
    case isTrue  => exact ⟨h, by simp [Collect.goto, CollectStage.left, UploadStage.left]⟩
    case isFalse => exact ⟨sees_rest h, left_names_lt⟩
  split
  case isTrue        => exact hclaims 0
  case isFalse hfile =>
    split
    case h_1 hn =>
      have hsome := h.right.right (not_not.mp hfile)
      rw [hn] at hsome
      cases hsome
    case h_2 data _ =>
      split
      case isTrue  => exact ⟨sees_rest h, left_names_lt⟩
      case isFalse => exact hclaims data.length

theorem upload_sees {references : Finset String} {found : Found} {name : String} {size : ℕ} {rest : List String}
    {stage : UploadStage} (h : CollectStage.sees files (.upload found name size stage rest)) :
    let next := q.upload sha256 files c references found name size rest stage
    next.1.stage.sees next.2.1 ∧ next.1.stage.left < CollectStage.left (.upload found name size stage rest) := by
  cases stage with
  | check        => exact check_sees h
  | claim        =>
    simp only [Collect.upload]
    split
    case h_1 => exact ⟨sees_rest h, left_names_lt⟩
    case h_2 => exact ⟨h, by simp [Collect.goto, CollectStage.left, UploadStage.left]⟩
  | recheck      =>
    simp only [Collect.upload, Collect.goto]
    split
    case isTrue  => exact ⟨⟨h.left, h.right.left, trivial⟩, by simp [CollectStage.left, UploadStage.left]⟩
    case isFalse =>
      split
      case isTrue hfile => exact ⟨⟨h.left, h.right.left, h.right.right hfile⟩, by simp [CollectStage.left, UploadStage.left]⟩
      case isFalse      => exact ⟨⟨h.left, h.right.left, trivial⟩, by simp [CollectStage.left, UploadStage.left]⟩
  | unlink       =>
    simp only [Collect.upload, if_pos (show (files.lookup name).isSome = true from h.right.right)]
    refine ⟨⟨h.left, fun other hmem hfile => ?_, trivial⟩, by simp [Collect.goto, CollectStage.left, UploadStage.left]⟩
    rw [Finmap.lookup_erase_ne]
    · exact h.right.left other hmem hfile
    · rintro rfl
      exact (List.nodup_cons.mp h.left).left hmem
  | drop rebound => cases rebound <;> exact ⟨sees_rest h, left_names_lt⟩

theorem turn_sees (h : q.stage.sees files) (hn : q.stage ≠ .done) :
    let next := q.turn sha256 answer files c
    next.1.stage.sees next.2.1 ∧ next.1.stage.left < q.stage.left := by
  unfold Collect.turn
  cases hstage : q.stage with
  | names found rest                  =>
    rw [hstage] at h
    cases rest with
    | nil            => exact ⟨trivial, by simp [Collect.goto, CollectStage.left]⟩
    | cons name rest => exact next_sees h
  | upload found name size stage rest =>
    rw [hstage] at h
    exact upload_sees h
  | done                              => exact absurd hstage hn
  | _                                 =>
    rw [hstage] at h
    exact h.elim

-- The collection, taking its turns alone, gets done.
def Ends (sha256 : Bytes → String) (s : State) (id : ℕ) (answer : Answer) : Prop :=
  ∃ n, Done (Run.run (step sha256) s (List.replicate n (.turn id answer))) id

theorem Ends.of_turn (hq : s.processes.lookup id = some (.collect q))
    (h : let next := q.turn sha256 answer s.files s.catalog
      Ends sha256 ⟨next.2.1, next.2.2, s.processes.insert id (.collect next.1)⟩ id answer) : Ends sha256 s id answer := by
  obtain ⟨n, hn⟩ := h
  refine ⟨n + 1, ?_⟩
  rw [List.replicate_succ, Run.run_cons]
  simpa only [step, hq] using hn

theorem ends_of_sees (hq : s.processes.lookup id = some (.collect q)) (h : q.stage.sees s.files) :
    Ends sha256 s id answer := by
  induction hl : q.stage.left using Nat.strong_induction_on generalizing s q
  case h left ih =>
    by_cases hdone : q.stage = .done
    case pos => exact ⟨0, q, hq, hdone⟩
    case neg =>
      obtain ⟨hsees, hlt⟩ := turn_sees (c := s.catalog) h hdone
      exact .of_turn hq (ih _ (hl ▸ hlt) (Finmap.lookup_insert _) hsees rfl)

theorem ends_alone (hn : s.processes.lookup id = none) (references : Finset String) :
    Ends sha256 (step sha256 s (.collect id plan)) id ⟨s.files.keys, references⟩ := by
  have hid : id ∉ s.processes.keys := fun h => Finmap.lookup_eq_none.mp hn (Finmap.mem_keys.mp h)
  simp only [step, State.start, if_neg hid]
  -- What a collection reads before its names: the objects, the archive's digests, its reservations, the references.
  refine .of_turn (Finmap.lookup_insert _) (.of_turn (Finmap.lookup_insert _) ?_)
  refine .of_turn (Finmap.lookup_insert _) (.of_turn (Finmap.lookup_insert _) ?_)
  refine ends_of_sees (Finmap.lookup_insert _) ⟨Finset.sort_nodup _ _, fun name _ hfile => ?_⟩
  exact Finmap.lookup_isSome.mpr (Finmap.mem_keys.mp hfile)

end Alone

section Run

variable {sha256 : Bytes → String} {s : State} {e : Event} {es : List Event} {d domain : String}

-- A later collection for the domain frees the digest: when it gets done it has, and alone it gets done.
def Freed (sha256 : Bytes → String) (s : State) (d domain : String) : Prop :=
  ∀ id plan, plan.corpus = domain → plan.destructive = true → s.processes.lookup id = none →
    (∀ es, Done (Run.run (step sha256) (step sha256 s (.collect id plan)) es) id →
      ∃ es₁, es₁ <+: es ∧ ¬(Run.run (step sha256) (step sha256 s (.collect id plan)) es₁).catalog.collecting d) ∧
    ∀ references, Ends sha256 (step sha256 s (.collect id plan)) id ⟨s.files.keys, references⟩

theorem Stuck.freed (hs : Stuck s.catalog d domain) (hu : s.catalog.Uniform) (hi : Intact sha256 s.files) :
    Freed sha256 s d domain := by
  rintro id plan rfl hd hn
  have hid : id ∉ s.processes.keys := fun h => Finmap.lookup_eq_none.mp hn (Finmap.mem_keys.mp h)
  refine ⟨fun es hdone => ?_, ends_alone hn⟩
  have hstart : step sha256 s (.collect id plan) = { s with
      processes := s.processes.insert id (.collect ⟨plan, .empty, .walk⟩) } := by
    simp only [step, State.start, if_neg hid]
  rw [hstart] at hdone ⊢
  exact Coming.freed ⟨_, Finmap.lookup_insert _, rfl, trivial⟩ hu hi hs hd hdone

-- Every reservation of an object that is unlinked had expired past its grace.
def Unlinks (sha256 : Bytes → String) (s : State) (e : Event) : Prop :=
  ∀ d, (s.files.lookup d).isSome → (step sha256 s e).files.lookup d = none →
    ∀ k r, s.catalog.reservations.lookup k = some r → r.objectDigest = d → s.Expired r

theorem Safe.unlinks (hs : Safe sha256 s) : Unlinks sha256 s e := by
  intro d hsome hnone k r hk hd
  obtain hf | ⟨data, hf⟩ | ⟨id, p, name, hp, hh, hf⟩ := files_step sha256 s e
  · rw [← hf, hnone] at hsome
    cases hsome
  · rw [hf, Finmap.lookup_eq_none, Finmap.mem_insert, not_or] at hnone
    exact absurd (Finmap.lookup_isSome.mp hsome) hnone.right
  · have hname : d = name := by
      by_contra hne
      rw [hf, Finmap.lookup_erase_ne hne] at hnone
      rw [hnone] at hsome
      cases hsome
    subst hname
    obtain ⟨k', r', hk', hd', hr'⟩ := (hs.held id p d hp hh).left
    exact hs.expired k r hk (hs.uniform k' r' k r hk' hk (hd'.trans hd.symm) hr').left

theorem collection_run (h : Run.Along (step sha256) Apart init es) :
    let s := Run.run (step sha256) init es
    (∀ d, s.catalog.archived d → ∃ data, s.files.lookup d = some data ∧ sha256 data = d) ∧
      (∀ e, Unlinks sha256 s e) ∧ ∀ d domain, Stuck s.catalog d domain → Freed sha256 s d domain := by
  have hs := h.invariant (I := Safe sha256) (fun _ _ hs ha => hs.step ha) .init
  refine ⟨fun d hd => ?_, fun e => hs.unlinks, fun d domain hstuck => hstuck.freed hs.uniform hs.intact⟩
  obtain ⟨data, hdata⟩ := Option.isSome_iff_exists.mp (hs.archived d hd)
  exact ⟨data, hdata, hs.intact d data hdata⟩

-- One object's digest, a session, and what a walk that finds the object answers.
def object : String :=
  "aaaaaaaaaaaaaaaaaaaaaaaaaaaaaaaaaaaaaaaaaaaaaaaaaaaaaaaaaaaaaaaa"

def session : Scope :=
  ⟨"corpus", "session", "1"⟩

def walked : Answer :=
  ⟨{object}, ∅⟩

-- Two uploads of the same bytes.
def uploads : List Event :=
  [.register session, .reserve "corpus" "first" object "attempt" 5, .reserve "corpus" "second" object "attempt" 5, .put [0]]

-- A commit up to its archive row.
def verifies : List Event :=
  [.commit 0 "corpus" "first" ⟨session, 0, 1, object⟩, .turn 0 walked, .turn 0 walked]

def collects (id turns : ℕ) : List Event :=
  .collect id ⟨"corpus", 0, 10, true⟩ :: List.replicate turns (.turn id walked)

-- A commit archives the object, and a later collection takes only the reservation of the other upload away.
def archives : List Event :=
  uploads ++ verifies ++ [.turn 0 walked] ++ collects 1 6

theorem collection_run_archives : Run.Along (step fun _ => object) Apart init archives ∧
    ∀ d, (Run.run (step fun _ => object) init archives).catalog.archived d →
      ∃ data, (Run.run (step fun _ => object) init archives).files.lookup d = some data ∧ object = d :=
  have h : Run.Along (step fun _ => object) Apart init archives := by decide +kernel
  ⟨h, (collection_run h).left⟩

-- A collection claims the object between a commit's check of its bytes and its archive row, and of two collections that
-- have claimed the same object one unlinks it after the other has let it be reserved again.
theorem collection_loses : (∃ es, let s := Run.run (step fun _ => object) init es
      s.catalog.archived object ∧ s.files.lookup object = none) ∧
    ∃ es e, ¬Unlinks (fun _ => object) (Run.run (step fun _ => object) init es) e := by
  constructor
  case left  => exact ⟨uploads ++ verifies ++ collects 1 9 ++ [.turn 0 walked], by decide +kernel⟩
  case right =>
    let es := uploads ++ collects 1 8 ++ collects 2 10 ++ [.reserve "corpus" "third" object "attempt" 50, .put [0]]
    refine ⟨es, .turn 1 walked, fun h => ?_⟩
    have hrun : let s := Run.run (step fun _ => object) init es
        (s.files.lookup object).isSome = true ∧ (step (fun _ => object) s (.turn 1 walked)).files.lookup object = none ∧
          s.catalog.reservations.lookup ("corpus", "third") = some ⟨object, "attempt", 50, .reserved⟩ ∧
          ¬s.Expired ⟨object, "attempt", 50, .reserved⟩ := by
      decide +kernel
    obtain ⟨hsome, hnone, hrow, hexpired⟩ := hrun
    exact hexpired (h object hsome hnone _ _ hrow rfl)

end Run

end Collection
