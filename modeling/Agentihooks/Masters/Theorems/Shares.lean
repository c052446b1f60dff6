import Mathlib.Algebra.BigOperators.Group.Finset.Sigma
import Mathlib.Algebra.Order.BigOperators.Group.Finset
import Mathlib.Data.Finset.Sort
import Agentihooks.Masters.Theorems.Masters

-- How even the shares of the seats are: what a seat that is new takes, and from whom.

namespace Masters

variable {phase source target seat seat' added : String} {phases seatList known : List String} {n share : ℕ}
variable {owners owners' previous : Dict String String} {handed : Finset String}

section Loads

-- Every phase is owned by a seat, and nothing else is owned.
structure Dealt (phases seatList : List String) (owners : Dict String String) : Prop where
  keys   : ∀ phase, (owners.lookup phase).isSome ↔ phase ∈ phases
  within : Within seatList owners

theorem mem_load : phase ∈ owners.keys.filter (fun item => owners.lookup item = some seat) ↔
    owners.lookup phase = some seat := by
  rw [Finset.mem_filter, Finmap.mem_keys, ← Finmap.lookup_isSome, and_iff_right_iff_imp]
  exact fun h => h ▸ rfl

theorem load_insert_of_ne (hs : owners.lookup phase ≠ some seat) (ht : target ≠ seat) :
    load (owners.insert phase target) seat = load owners seat := by
  refine congrArg Finset.card (Finset.ext fun item => ?_)
  rw [mem_load, mem_load]
  obtain rfl | hi := eq_or_ne item phase
  case inl => rw [Finmap.lookup_insert]; simp [hs, ht]
  case inr => rw [Finmap.lookup_insert_of_ne _ hi]

theorem load_insert_target (h : owners.lookup phase ≠ some target) :
    load (owners.insert phase target) target = load owners target + 1 := by
  have hn : phase ∉ owners.keys.filter (fun item => owners.lookup item = some target) := mem_load.not.mpr h
  rw [load, load, ← Finset.card_insert_of_notMem hn]
  refine congrArg Finset.card (Finset.ext fun item => ?_)
  rw [mem_load, Finset.mem_insert, mem_load]
  obtain rfl | hi := eq_or_ne item phase
  case inl => simp [Finmap.lookup_insert]
  case inr => simp [Finmap.lookup_insert_of_ne _ hi, hi]

theorem load_insert_source (h : owners.lookup phase = some source) (ht : target ≠ source) :
    load (owners.insert phase target) source + 1 = load owners source := by
  have hm : phase ∈ owners.keys.filter (fun item => owners.lookup item = some source) := mem_load.mpr h
  rw [load, load, ← Finset.card_erase_add_one hm]
  refine congrArg (Finset.card · + 1) (Finset.ext fun item => ?_)
  rw [mem_load, Finset.mem_erase, mem_load]
  obtain rfl | hi := eq_or_ne item phase
  case inl => simp [Finmap.lookup_insert, ht]
  case inr => simp [Finmap.lookup_insert_of_ne _ hi, hi]

theorem sum_load (h : Dealt phases seatList owners) (hp : phases.Nodup) :
    ∑ seat ∈ seatList.toFinset, load owners seat = phases.length := by
  have hk : owners.keys = phases.toFinset := by
    ext phase
    rw [Finmap.mem_keys, ← Finmap.lookup_isSome, h.keys, List.mem_toFinset]
  have hm : ∀ item ∈ owners.keys, (owners.lookup item).getD "" ∈ seatList.toFinset := by
    intro item hi
    rw [Finmap.mem_keys, ← Finmap.lookup_isSome] at hi
    obtain ⟨owner, ho⟩ := Option.isSome_iff_exists.mp hi
    rw [ho, Option.getD_some, List.mem_toFinset]
    exact h.within item owner ho
  rw [← List.toFinset_card_of_nodup hp, ← hk, Finset.card_eq_sum_card_fiberwise hm]
  refine Finset.sum_congr rfl fun seat _ => congrArg Finset.card (Finset.filter_congr fun item hi => ?_)
  rw [Finmap.mem_keys, ← Finmap.lookup_isSome] at hi
  obtain ⟨owner, ho⟩ := Option.isSome_iff_exists.mp hi
  simp [ho]

-- Where no two seats are further apart than one phase, none is below the even share.
theorem share_le_load (h : Dealt phases seatList owners) (hp : phases.Nodup)
    (hb : ∀ a ∈ seatList, ∀ b ∈ seatList, load owners a ≤ load owners b + 1) (hs : seat ∈ seatList) :
    phases.length / seatList.length ≤ load owners seat := by
  by_contra hlt
  rw [not_le] at hlt
  have hall : ∀ a ∈ seatList.toFinset, load owners a ≤ phases.length / seatList.length := fun a ha =>
    (hb a (List.mem_toFinset.mp ha) seat hs).trans hlt
  have hsum : ∑ a ∈ seatList.toFinset, load owners a < ∑ _a ∈ seatList.toFinset, phases.length / seatList.length :=
    Finset.sum_lt_sum hall ⟨seat, List.mem_toFinset.mpr hs, hlt⟩
  rw [sum_load h hp, Finset.sum_const_nat fun _ _ => rfl] at hsum
  have hcard : seatList.toFinset.card * (phases.length / seatList.length) ≤ phases.length :=
    (Nat.mul_le_mul_right _ seatList.toFinset_card_le).trans (Nat.mul_div_le _ _)
  omega

end Loads

section Fill

-- What the seats own before a new one takes anything.
def filled (phases seatList : List String) (previous : Dict String String) : Dict String String :=
  place seatList (kept phases seatList previous) phases

theorem lookup_place (h : owners.lookup phase = some seat) :
    (place seatList owners phases).lookup phase = some seat := by
  induction phases generalizing owners
  case nil => exact h
  case cons other phases hi =>
    rw [place]
    split
    case isTrue  => exact hi h
    case isFalse hn =>
      split
      case h_2 => exact hi h
      case h_1 =>
        refine hi ?_
        have hne : phase ≠ other := by
          rintro rfl
          simp [h] at hn
        rwa [Finmap.lookup_insert_of_ne _ hne]

theorem mem_of_place (h : (place seatList owners phases).lookup phase = some seat) :
    owners.lookup phase = some seat ∨ phase ∈ phases := by
  induction phases generalizing owners
  case nil => exact .inl h
  case cons other phases hi =>
    rw [place] at h
    split at h
    case isTrue  => exact (hi h).imp_right (List.mem_cons_of_mem _)
    case isFalse =>
      split at h
      case h_2 => exact (hi h).imp_right (List.mem_cons_of_mem _)
      case h_1 =>
        obtain h | h := hi h
        case inr => exact .inr (List.mem_cons_of_mem _ h)
        case inl =>
          obtain rfl | hne := eq_or_ne phase other
          case inl => exact .inr List.mem_cons_self
          case inr => exact .inl ((Finmap.lookup_insert_of_ne _ hne).symm.trans h)

theorem lookup_kept : (kept phases seatList previous).lookup phase = some seat ↔
    previous.lookup phase = some seat ∧ phase ∈ phases ∧ seat ∈ seatList :=
  Finmap.lookup_select_eq_some

theorem within_filled : Within seatList (filled phases seatList previous) :=
  within_place fun _ _ h => (lookup_kept.mp h).right.right

theorem mem_of_filled (h : (filled phases seatList previous).lookup phase = some seat) : phase ∈ phases := by
  obtain h | h := mem_of_place h
  case inl => exact (lookup_kept.mp h).right.left
  case inr => exact h

theorem dealt_filled (hne : seatList ≠ []) : Dealt phases seatList (filled phases seatList previous) where
  keys phase := by
    constructor
    case mp =>
      intro h
      obtain ⟨seat, hs⟩ := Option.isSome_iff_exists.mp h
      exact mem_of_filled hs
    case mpr => exact covers_place hne phase
  within := within_filled

theorem load_fewest (h : fewest seatList owners = some seat) (hs : seat' ∈ seatList) :
    load owners seat ≤ load owners seat' := by
  have hle := List.le_of_mem_argmin hs h
  rw [Prod.Lex.toLex_le_toLex] at hle
  exact hle.elim le_of_lt fun h => h.left.le

-- The seat that owns fewest gets the next phase, so no seat gets ahead of another by more than one.
theorem place_even (h : ∀ a ∈ seatList, ∀ b ∈ seatList, load owners a ≤ load owners b + 1) :
    ∀ a ∈ seatList, ∀ b ∈ seatList,
      load (place seatList owners phases) a ≤ load (place seatList owners phases) b + 1 := by
  induction phases generalizing owners
  case nil => exact h
  case cons phase phases hi =>
    rw [place]
    split
    case isTrue  => exact hi h
    case isFalse hn =>
      have hnone : owners.lookup phase = none := by simpa using hn
      split
      case h_2 => exact hi h
      case h_1 seat hf =>
        refine hi fun a ha b hb => ?_
        have hseat : load (owners.insert phase seat) seat = load owners seat + 1 :=
          load_insert_target (by simp [hnone])
        have hother (c : String) (hc : seat ≠ c) : load (owners.insert phase seat) c = load owners c :=
          load_insert_of_ne (by simp [hnone]) hc
        have hle := load_fewest hf hb
        have hab := h a ha b hb
        have has := h a ha seat (fewest_mem hf)
        obtain rfl | hsa := eq_or_ne seat a <;> obtain rfl | hsb := eq_or_ne seat b
        · omega
        · rw [hseat, hother b hsb]
          omega
        · rw [hseat, hother a hsa]
          omega
        · rw [hother a hsa, hother b hsb]
          exact hab

end Fill

section Take

structure Move where
  phase  : String
  source : String
  target : String

-- The moves that lead from one table of owners to another.
inductive Moved (owners : Dict String String) : List Move → Dict String String → Prop
  | none : Moved owners [] owners
  | more {moves : List Move} {owners' : Dict String String} {phase source target : String} :
    Moved owners moves owners' → owners'.lookup phase = some source →
    Moved owners (moves ++ [⟨phase, source, target⟩]) (owners'.insert phase target)

-- Whoever is above the share has nothing that may move.
def Stuck (share : ℕ) (handed : Finset String) (owners : Dict String String) : Prop :=
  ∀ phase seat, owners.lookup phase = some seat → share < load owners seat → phase ∈ handed

-- What is true of a move in the end.
structure Fair (seatList known : List String) (share : ℕ) (handed : Finset String) (owners : Dict String String)
    (m : Move) : Prop where
  added  : m.target ∈ seatList ∧ m.target ∉ known
  free   : m.phase ∉ handed
  other  : m.source ≠ m.target
  target : load owners m.target ≤ share
  source : share ≤ load owners m.source ∨ Stuck share handed owners

-- What a seat that is new takes: a phase of the busiest seat that has one to give.
structure Takes (phases : List String) (share : ℕ) (handed : Finset String) (added : String)
    (owners : Dict String String) (phase source : String) : Prop where
  listed  : phase ∈ phases
  free    : phase ∉ handed
  owner   : owners.lookup phase = some source
  other   : source ≠ added
  below   : load owners added < share
  busiest : ∀ phase' ∈ phases, phase' ∉ handed → ∀ seat, owners.lookup phase' = some seat → seat ≠ added →
    load owners seat ≤ load owners source

namespace Takes

variable (h : Takes phases share handed added owners phase source)
include h

theorem load_added : load (owners.insert phase added) added = load owners added + 1 :=
  load_insert_target (by rw [h.owner]; simpa using h.other)

theorem load_source : load (owners.insert phase added) source + 1 = load owners source :=
  load_insert_source h.owner h.other.symm

theorem load_other (hs : seat ≠ source) (ha : seat ≠ added) :
    load (owners.insert phase added) seat = load owners seat :=
  load_insert_of_ne (by rw [h.owner]; simpa using hs.symm) ha.symm

theorem load_le (ha : seat ≠ added) : load (owners.insert phase added) seat ≤ load owners seat := by
  obtain rfl | hs := eq_or_ne seat source
  case inl =>
    have hl := h.load_source
    omega
  case inr => exact (h.load_other hs ha).le

-- A seat that has no more than the share gives a phase only where all that is above the share is stuck.
theorem stuck (hm : ∀ phase seat, owners.lookup phase = some seat → phase ∈ phases) (hl : load owners source ≤ share) :
    Stuck share handed owners := by
  intro phase' seat hp hs
  by_contra hf
  have hne : seat ≠ added := by
    rintro rfl
    exact hs.asymm h.below
  have hle := h.busiest phase' (hm phase' seat hp) hf seat hp hne
  omega

theorem stays_stuck (hs : Stuck share handed owners) : Stuck share handed (owners.insert phase added) := by
  intro phase' seat hp hl
  have hne : seat ≠ added := by
    rintro rfl
    have hl' := h.load_added
    have hb := h.below
    omega
  obtain rfl | hp' := eq_or_ne phase' phase
  case inl =>
    rw [Finmap.lookup_insert] at hp
    exact absurd (Option.some.inj hp).symm hne
  case inr =>
    rw [Finmap.lookup_insert_of_ne _ hp'] at hp
    exact hs phase' seat hp (hl.trans_le (h.load_le hne))

theorem stays_fair {m : Move} (hm : ∀ phase seat, owners.lookup phase = some seat → phase ∈ phases)
    (hf : Fair seatList known share handed owners m) :
    Fair seatList known share handed (owners.insert phase added) m where
  added  := hf.added
  free   := hf.free
  other  := hf.other
  target := by
    obtain he | hne := eq_or_ne m.target added
    case inl =>
      rw [he, h.load_added]
      exact h.below
    case inr => exact (h.load_le hne).trans hf.target
  source := by
    obtain hl | hs := hf.source
    case inr => exact .inr (h.stays_stuck hs)
    case inl =>
      obtain he | hne := eq_or_ne m.source added
      case inl =>
        rw [he] at hl
        exact absurd h.below hl.not_gt
      case inr =>
        obtain he | hne' := eq_or_ne m.source source
        case inr => exact .inl (h.load_other hne' hne ▸ hl)
        case inl =>
          rw [he] at hl ⊢
          obtain hlt | hle := hl.lt_or_eq
          case inr => exact .inr (h.stays_stuck (h.stuck hm hle.ge))
          case inl =>
            have hl' := h.load_source
            exact .inl (by omega)

theorem fair (hm : ∀ phase seat, owners.lookup phase = some seat → phase ∈ phases)
    (ha : added ∈ seatList ∧ added ∉ known) :
    Fair seatList known share handed (owners.insert phase added) ⟨phase, source, added⟩ where
  added  := ha
  free   := h.free
  other  := h.other
  target := h.load_added ▸ h.below
  source := by
    have hl' := h.load_source
    by_cases hl : load owners source ≤ share
    case pos => exact .inr (h.stays_stuck (h.stuck hm hl))
    case neg => exact .inl (by change share ≤ load _ source; omega)

end Takes

-- The moves so far, each of them fair.
structure Taking (phases seatList known : List String) (share : ℕ) (handed : Finset String)
    (base owners : Dict String String) (moves : List Move) : Prop where
  moved  : Moved base moves owners
  fair   : ∀ m ∈ moves, Fair seatList known share handed owners m
  listed : ∀ phase seat, owners.lookup phase = some seat → phase ∈ phases

variable {base : Dict String String} {moves : List Move}

theorem Taking.take (h : Taking phases seatList known share handed base owners moves)
    (ht : Takes phases share handed added owners phase source) (ha : added ∈ seatList ∧ added ∉ known) :
    Taking phases seatList known share handed base (owners.insert phase added) (moves ++ [⟨phase, source, added⟩]) where
  moved := .more h.moved ht.owner
  fair m hm := by
    obtain hm | hm := List.mem_append.mp hm
    case inl => exact ht.stays_fair h.listed (h.fair m hm)
    case inr => exact List.mem_singleton.mp hm ▸ ht.fair h.listed ha
  listed phase' seat hp := by
    obtain rfl | hp' := eq_or_ne phase' phase
    case inl => exact ht.listed
    case inr => exact h.listed phase' seat ((Finmap.lookup_insert_of_ne _ hp').symm.trans hp)

theorem takes_of_busiest (hl : load owners added < share) {seat : String}
    (hb : busiest seatList owners (movable phases handed owners added) = some seat)
    (hp : ((movable phases handed owners added).filter (owners.lookup · = some seat)).getLast? = some phase) :
    Takes phases share handed added owners phase seat := by
  have hm := List.mem_of_getLast? hp
  simp only [movable, List.mem_filter, decide_eq_true_eq] at hm
  obtain ⟨⟨hlisted, hfree, hne⟩, howner⟩ := hm
  refine ⟨hlisted, hfree, howner, fun he => hne (he ▸ howner), hl, ?_⟩
  intro phase' hp' hf' seat' hs' hne'
  have hmem : seat' ∈ (movable phases handed owners added).filterMap owners.lookup :=
    List.mem_filterMap.mpr ⟨phase', by simp [movable, hp', hf', hs', hne'], hs'⟩
  have hle := List.le_of_mem_argmax hmem hb
  rw [Prod.Lex.toLex_le_toLex] at hle
  exact hle.elim le_of_lt fun h => h.left.le

theorem taking_take (h : Taking phases seatList known share handed base owners moves)
    (ha : added ∈ seatList ∧ added ∉ known) (hl : load owners added + n ≤ share) :
    ∃ moves, Taking phases seatList known share handed base (take phases seatList handed added n owners) moves := by
  induction n generalizing owners moves
  case zero => exact ⟨moves, h⟩
  case succ n hi =>
    rw [take]
    split
    case h_2 => exact ⟨moves, h⟩
    case h_1 phase hp =>
      obtain ⟨seat, hb, hp⟩ := Option.bind_eq_some_iff.mp hp
      have hlt : load owners added < share := by omega
      have ht := takes_of_busiest hlt hb hp
      refine hi (h.take ht ha) ?_
      have hl' := ht.load_added
      omega

theorem taking_takes {news : List String} (h : Taking phases seatList known share handed base owners moves)
    (ha : ∀ added ∈ news, added ∈ seatList ∧ added ∉ known) :
    ∃ moves, Taking phases seatList known share handed base (takes phases seatList handed share news owners) moves := by
  induction news generalizing owners moves
  case nil => exact ⟨moves, h⟩
  case cons added news hi =>
    obtain ⟨ha, hnews⟩ := List.forall_mem_cons.mp ha
    rw [takes, List.foldl_cons, ← takes]
    by_cases hl : load owners added ≤ share
    case pos =>
      obtain ⟨moves', hm⟩ := taking_take (n := share - load owners added) h ha (by omega)
      exact hi hm hnews
    case neg =>
      rw [Nat.sub_eq_zero_of_le (not_le.mp hl).le, take]
      exact hi h hnews

-- Who is above the share takes nothing.
theorem takes_eq {news : List String} (h : ∀ added ∈ news, share ≤ load owners added) :
    takes phases seatList handed share news owners = owners := by
  induction news
  case nil => rfl
  case cons added news hi =>
    obtain ⟨ha, hnews⟩ := List.forall_mem_cons.mp h
    rw [takes, List.foldl_cons, ← takes, Nat.sub_eq_zero_of_le ha, take]
    exact hi hnews

variable (phase) in
theorem lookup_moved (h : Moved base moves owners) : owners.lookup phase = base.lookup phase ∨
    ∃ m ∈ moves, m.phase = phase ∧ owners.lookup phase = some m.target := by
  induction h
  case none => exact .inl rfl
  case more moves owners' phase' source target _ _ hi =>
    obtain rfl | hp := eq_or_ne phase phase'
    case inl => exact .inr ⟨⟨phase, source, target⟩, by simp, rfl, Finmap.lookup_insert _⟩
    case inr =>
      rw [Finmap.lookup_insert_of_ne _ hp]
      refine hi.imp_right ?_
      rintro ⟨m, hm, he, ht⟩
      exact ⟨m, List.mem_append_left _ hm, he, ht⟩

end Take

section Assign

theorem exists_taking : ∃ moves, Taking phases seatList known (phases.length / seatList.length) handed
    (filled phases seatList previous) (takes phases seatList handed (phases.length / seatList.length)
      (seatList.filter (· ∉ known)) (filled phases seatList previous)) moves := by
  have hn : Taking phases seatList known (phases.length / seatList.length) handed (filled phases seatList previous)
      (filled phases seatList previous) [] := ⟨.none, by simp, fun _ _ => mem_of_filled⟩
  refine taking_takes hn fun added ha => ?_
  simpa using List.mem_filter.mp ha

theorem assign_eq : assign phases seatList previous known handed =
    takes phases seatList handed (phases.length / seatList.length) (seatList.filter (· ∉ known))
      (filled phases seatList previous) := by
  obtain ⟨moves, h⟩ := @exists_taking phases seatList known previous handed
  refine Finmap.ext_lookup fun phase => Option.ext fun seat => ?_
  rw [assign, Finmap.lookup_restrict_eq_some]
  exact ⟨And.right, fun hs => ⟨h.listed phase seat hs, hs⟩⟩

theorem place_eq (h : Covers phases owners) : place seatList owners phases = owners := by
  induction phases
  case nil => rfl
  case cons phase phases hi =>
    obtain ⟨hp, hr⟩ := List.forall_mem_cons.mp h
    rw [place, if_pos hp]
    exact hi hr

theorem load_kept_empty : load (kept phases seatList ∅) seat = 0 := by
  rw [load, Finset.card_eq_zero, Finset.eq_empty_iff_forall_notMem]
  intro item hi
  have hl := (lookup_kept.mp (mem_load.mp hi)).left
  simp at hl

-- What is true of the seats that the phases are assigned to.
structure Assigned (phases seatList : List String) (previous : Dict String String) (known : List String)
    (handed : Finset String) (owners : Dict String String) : Prop where
  owned : ∀ phase ∈ phases, ∃ seat ∈ seatList, owners.lookup phase = some seat
  only  : ∀ phase seat, owners.lookup phase = some seat → phase ∈ phases
  kept  : ∀ phase ∈ phases, ∀ owner ∈ seatList, previous.lookup phase = some owner →
    owners.lookup phase = some owner ∨
      phase ∉ handed ∧ ∃ added ∈ seatList, added ∉ known ∧ owners.lookup phase = some added
  moved : ∃ moves, Moved (filled phases seatList previous) moves owners ∧
    ∀ m ∈ moves, Fair seatList known (phases.length / seatList.length) handed owners m
  even  : previous = ∅ → ∀ a ∈ seatList, ∀ b ∈ seatList, load owners a ≤ load owners b + 1
  again : ∀ handed, assign phases seatList owners seatList handed = owners

theorem even_filled (hp : phases.Nodup) (hne : seatList ≠ []) :
    assign phases seatList ∅ known handed = filled phases seatList ∅ ∧
      ∀ a ∈ seatList, ∀ b ∈ seatList, load (filled phases seatList ∅) a ≤ load (filled phases seatList ∅) b + 1 := by
  have hb : ∀ a ∈ seatList, ∀ b ∈ seatList, load (filled phases seatList ∅) a ≤ load (filled phases seatList ∅) b + 1 :=
    place_even fun a _ b _ => by simp [load_kept_empty]
  refine ⟨?_, hb⟩
  rw [assign_eq]
  exact takes_eq fun added ha => share_le_load (dealt_filled hne) hp hb (List.mem_of_mem_filter ha)

theorem assign_again (hl : ∀ phase seat, owners.lookup phase = some seat → phase ∈ phases ∧ seat ∈ seatList)
    (hc : Covers phases owners) : assign phases seatList owners seatList handed = owners := by
  have hk : kept phases seatList owners = owners := Finmap.select_eq_self hl
  have hn : seatList.filter (· ∉ seatList) = [] := by simp
  rw [assign_eq, hn, takes, List.foldl_nil, filled, hk, place_eq hc]

theorem assign_assigned (hp : phases.Nodup) (hne : seatList ≠ []) :
    Assigned phases seatList previous known handed (assign phases seatList previous known handed) := by
  obtain ⟨moves, h⟩ := @exists_taking phases seatList known previous handed
  rw [← assign_eq] at h
  have howned : ∀ phase ∈ phases, ∃ seat ∈ seatList,
      (assign phases seatList previous known handed).lookup phase = some seat := by
    intro phase hphase
    obtain ⟨seat, hs⟩ := Option.isSome_iff_exists.mp (isSome_assign hne hphase)
    exact ⟨seat, within_assign phase seat hs, hs⟩
  refine ⟨howned, h.listed, ?_, ⟨moves, h.moved, h.fair⟩, ?_, ?_⟩
  case refine_1 =>
    intro phase hphase owner ho hprev
    have hf : (filled phases seatList previous).lookup phase = some owner :=
      lookup_place (lookup_kept.mpr ⟨hprev, hphase, ho⟩)
    obtain hl | ⟨m, hm, rfl, hl⟩ := lookup_moved phase h.moved
    case inl => exact .inl (hl.trans hf)
    case inr =>
      have hfair := h.fair m hm
      exact .inr ⟨hfair.free, m.target, hfair.added.left, hfair.added.right, hl⟩
  case refine_2 =>
    rintro rfl
    obtain ⟨he, hb⟩ := @even_filled phases seatList known handed hp hne
    rw [he]
    exact hb
  case refine_3 =>
    intro handed'
    refine assign_again (fun phase seat hs => ⟨h.listed phase seat hs, within_assign phase seat hs⟩) fun phase hphase => ?_
    obtain ⟨seat, _, hs⟩ := howned phase hphase
    rw [hs]
    rfl

theorem assign_assigned_two : Assigned ["p", "q", "r"] ["a", "b"] (Finmap.singleton "p" "a") ["a"] ∅
    (assign ["p", "q", "r"] ["a", "b"] (Finmap.singleton "p" "a") ["a"] ∅) :=
  assign_assigned (by decide) (by decide)

-- Two phases that were handed over stay, and the new seat takes the only phase of another one.
theorem assign_below_share :
    let previous : Dict String String := ((Finmap.singleton "p" "a").insert "q" "a").insert "r" "b"
    let owners := assign ["p", "q", "r"] ["a", "b", "c"] previous ["a", "b"] {"p", "q"}
    (filled ["p", "q", "r"] ["a", "b", "c"] previous).lookup "r" = some "b" ∧ owners.lookup "r" = some "c" ∧
      load owners "b" < 3 / 3 := by
  decide +kernel

end Assign

end Masters
