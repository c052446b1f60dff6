import Agentihooks.Quota.Policy

-- Which account a handoff goes to, and the two kinds of mixed candidates for which a better one is passed over.

namespace QuotaPolicy.Inputs

variable {i : Inputs} {c d t : Candidate}

def target (i : Inputs) : Option Candidate :=
  i.decide.bind (·.target)

def hit (i : Inputs) : Bool :=
  i.weekHit || i.fiveHit

-- The candidates that may take a handoff at all.
def usable (i : Inputs) : List Candidate :=
  i.room.filter fun c => minRoutingLeft ≤ c.routingLeft

-- Nothing better than `t` was passed over.
structure Well (i : Inputs) (t : Candidate) : Prop where
  fits    : t ∈ i.usable
  full    : t.full → ∀ c ∈ i.usable, c.full
  reserve : t.account ∈ i.reserve → ∀ c ∈ i.usable, ¬ c.full → c.account ∈ i.reserve

structure Keeps (i : Inputs) : Prop where
  well : ∀ t, i.target = some t → t.account ≠ "api" → i.Well t
  none : i.decide = none → i.account = "api" ∨ ¬ i.hit
  push : i.push → ∀ t, i.target = some t → t.account ≠ "api"

-- A session that waits for its window asks no account that is nearly spent.
def waits (i : Inputs) : Bool :=
  !i.weekHit && i.comesBack

-- Of two candidates the first is taken from a list of them.
def Before (l : List Candidate) (c d : Candidate) : Prop :=
  toLex (-c.routingLeft, toLex (c.sessions, c.account)) < toLex (-d.routingLeft, toLex (d.sessions, d.account)) ∨
    toLex (-c.routingLeft, toLex (c.sessions, c.account)) = toLex (-d.routingLeft, toLex (d.sessions, d.account)) ∧
      l.idxOf c < l.idxOf d

-- The free slots are all of reserve accounts with less left than is good, and a full account with enough left or more
-- of it is taken before them.
def FullFirst (i : Inputs) : Prop :=
  (∃ c ∈ i.usable, ¬ c.full) ∧ (∀ c ∈ i.usable, ¬ c.full → c.account ∈ i.reserve ∧ c.routingLeft < i.minLeft) ∧
    ((∃ c ∈ i.usable, c.full ∧ i.minLeft ≤ c.routingLeft) ∨
      ¬ i.waits ∧ ∃ c ∈ i.usable, c.full ∧ ∀ d ∈ i.usable, ¬ d.full → Before i.usable c d)

-- What can take a handoff at all is full and of the reserve, and less than that is good enough.
def NearlySpent (i : Inputs) : Prop :=
  (∀ c ∈ i.usable, c.full ∧ c.account ∈ i.reserve) ∧
    ∃ c ∈ i.room, i.minLeft ≤ c.routingLeft ∧ (¬ c.full ∨ i.usable = [])

section Target

-- The subscription account that takes the handoff.
def chosen (i : Inputs) : Option Candidate :=
  if i.waits then i.bestGood else i.bestGood.or i.leastBad

theorem mem_room : c ∈ i.room ↔ c ∈ i.others ∧ c.account ≠ i.account ∧ c.account ≠ "api" ∧ ¬ c.reserved ∧
    c.fiveUsed < i.fivePct ∧ c.weekUsed < i.weekPct := by
  simp [room]

theorem mem_usable : c ∈ i.usable ↔ c ∈ i.room ∧ minRoutingLeft ≤ c.routingLeft := by
  simp [usable]

theorem mem_openSlots : c ∈ i.openSlots ↔ c ∈ i.usable ∧ ¬ c.full := by
  simp only [openSlots, mem_usable, List.mem_filter, decide_eq_true_eq]
  tauto

theorem mem_good : c ∈ i.good ↔ c ∈ i.pool ∧ i.minLeft ≤ c.routingLeft := by
  simp [good]

theorem mem_viable : c ∈ i.viable ↔ c ∈ i.pool ∧ minRoutingLeft ≤ c.routingLeft := by
  simp [viable]

theorem pool_subset (h : c ∈ i.pool) : c ∈ i.room := by
  rw [pool] at h
  by_cases hu : i.unreserved = []
  case pos => rwa [if_pos hu] at h
  case neg =>
    rw [if_neg hu, unreserved, List.mem_filter] at h
    by_cases ho : i.openSlots = []
    case pos => simpa [ho] using h.left
    case neg =>
      rw [if_neg ho] at h
      exact (mem_usable.mp (mem_openSlots.mp h.left).left).left

theorem bestGood_mem (h : i.bestGood = some t) : t ∈ i.good :=
  List.argmin_mem h

theorem exists_bestGood (h : c ∈ i.good) : ∃ t, i.bestGood = some t :=
  Option.ne_none_iff_exists'.mp fun hn => List.ne_nil_of_mem h (List.argmin_eq_none.mp hn)

theorem chosen_of_bestGood (h : i.bestGood = some t) : i.chosen = some t := by
  rw [chosen, h, Option.some_or, ite_self]

theorem leastBad_mem (h : i.leastBad = some t) : t ∈ i.viable :=
  List.argmin_mem h

theorem best_or_least (h : i.chosen = some t) : i.bestGood = some t ∨ i.leastBad = some t := by
  rw [chosen] at h
  by_cases hw : i.waits
  case pos => exact .inl (by simpa [hw] using h)
  case neg =>
    rw [if_neg hw, Option.or_eq_some_iff] at h
    exact h.imp_right And.right

theorem pool_of_chosen (h : i.chosen = some t) : t ∈ i.pool := by
  obtain h | h := best_or_least h
  case inl => exact (mem_good.mp (bestGood_mem h)).left
  case inr => exact (mem_viable.mp (leastBad_mem h)).left

theorem room_of_chosen (h : i.chosen = some t) : t ∈ i.room :=
  pool_subset (pool_of_chosen h)

theorem api_account (h : i.api = some t) : t.account = "api" := by
  have hs := List.find?_some h
  simp only [Bool.decide_and, Bool.and_eq_true, decide_eq_true_eq] at hs
  exact hs.left

theorem otherwise_target {stays : Action} {trigger : Trigger} :
    (i.otherwise stays trigger).target = if i.push then none else i.api := by
  rw [otherwise]
  cases i.push <;> cases i.api <;> rfl

theorem decide_eq_none : i.decide = none ↔ i.account = "api" ∨ ¬ i.hit := by
  by_cases ha : i.account = "api"
  case pos => simp [decide, ha]
  by_cases hh : i.hit
  case neg => simp_all [decide, hit]
  case pos =>
    have hd : ∃ d, i.decide = some d := by
      rw [decide, if_neg ha, if_neg (not_not.mpr (by simpa [hit] using hh))]
      by_cases hw : i.weekHit
      case pos =>
        rw [if_pos hw]
        cases i.bestGood.or i.leastBad <;> exact ⟨_, rfl⟩
      case neg =>
        rw [if_neg hw]
        cases i.bestGood
        case some => exact ⟨_, rfl⟩
        case none =>
          by_cases hc : i.comesBack
          case pos => exact ⟨_, if_pos hc⟩
          case neg =>
            cases hl : i.leastBad <;> exact ⟨_, if_neg hc⟩
    obtain ⟨d, hd⟩ := hd
    simp [hd, ha, hh]

theorem target_eq (ha : i.account ≠ "api") (hh : i.hit) :
    i.target = i.chosen.or (if i.push then none else i.api) := by
  rw [target, decide, if_neg ha, if_neg (not_not.mpr (by simpa [hit] using hh)), chosen, waits]
  by_cases hw : i.weekHit
  case pos =>
    rw [if_pos hw, hw]
    cases i.bestGood.or i.leastBad with
    | some t => simp [made]
    | none   => simp [otherwise_target]
  case neg =>
    rw [if_neg hw, eq_false_of_ne_true hw]
    cases hb : i.bestGood with
    | some t => cases hc : i.comesBack <;> simp [made]
    | none   =>
      cases hc : i.comesBack with
      | true  => simp [otherwise_target]
      | false =>
        cases hl : i.leastBad with
        | some t => simp [made]
        | none   => simp [otherwise_target]

theorem target_eq_none (h : ¬ (i.account ≠ "api" ∧ i.hit)) : i.target = none := by
  have hd : i.decide = none := decide_eq_none.mpr (by tauto)
  rw [target, hd, Option.bind_none]

theorem keeps_of_no_target (h : i.target = none) : i.Keeps where
  well t ht _ := by
    rw [h] at ht
    cases ht
  none        := decide_eq_none.mp
  push _ t ht := by
    rw [h] at ht
    cases ht

-- A candidate that is not the api slot comes from the list of those with room.
theorem keeps_iff_chosen (ha : i.account ≠ "api") (hh : i.hit) : i.Keeps ↔ ∀ t, i.chosen = some t → i.Well t := by
  constructor
  case mp =>
    intro h t ht
    exact h.well t (by rw [target_eq ha hh, ht, Option.some_or]) (mem_room.mp (room_of_chosen ht)).right.right.left
  case mpr =>
    intro h
    refine ⟨fun t ht hn => ?_, decide_eq_none.mp, fun hp t ht => ?_⟩
    case refine_1 =>
      rw [target_eq ha hh, Option.or_eq_some_iff] at ht
      obtain ht | ⟨_, ht⟩ := ht
      case inl => exact h t ht
      case inr =>
        cases hp : i.push <;> simp [hp] at ht
        exact absurd (api_account ht) hn
    case refine_2 =>
      rw [target_eq ha hh, if_pos hp, Option.or_none] at ht
      exact (mem_room.mp (room_of_chosen ht)).right.right.left

end Target

section Pools

theorem usable_of_viable (h : t ∈ i.viable) : t ∈ i.usable :=
  mem_usable.mpr ⟨pool_subset (mem_viable.mp h).left, (mem_viable.mp h).right⟩

theorem mem_unreserved_open (ho : i.openSlots ≠ []) :
    c ∈ i.unreserved ↔ c ∈ i.usable ∧ ¬ c.full ∧ c.account ∉ i.reserve := by
  simp only [unreserved, if_neg ho, List.mem_filter, mem_openSlots, mem_usable, decide_eq_true_eq]
  tauto

theorem mem_unreserved_full (ho : i.openSlots = []) : c ∈ i.unreserved ↔ c ∈ i.usable ∧ c.account ∉ i.reserve := by
  simp only [unreserved, if_pos ho, List.mem_filter, mem_usable, decide_eq_true_eq]
  tauto

theorem openSlots_eq_nil : i.openSlots = [] ↔ ∀ c ∈ i.usable, c.full := by
  rw [List.eq_nil_iff_forall_not_mem]
  simp only [mem_openSlots, not_and, not_not]

-- The candidates that the reserve does not keep back suffice.
theorem well_of_unreserved (hu : i.unreserved ≠ []) (h : i.chosen = some t) : i.Well t := by
  have hp : i.pool = i.unreserved := if_neg hu
  have ht : t ∈ i.unreserved := hp ▸ pool_of_chosen h
  by_cases ho : i.openSlots = []
  case pos =>
    obtain ⟨hm, hr⟩ := (mem_unreserved_full ho).mp ht
    exact ⟨hm, fun _ => openSlots_eq_nil.mp ho, fun hc => absurd hc hr⟩
  case neg =>
    obtain ⟨hm, hf, hr⟩ := (mem_unreserved_open ho).mp ht
    exact ⟨hm, fun hc => absurd hc hf, fun hc => absurd hc hr⟩

theorem not_fullFirst_of_unreserved (hu : i.unreserved ≠ []) : ¬ i.FullFirst := by
  rintro ⟨⟨c, hc, hf⟩, hr, _⟩
  have ho : i.openSlots ≠ [] := List.ne_nil_of_mem (mem_openSlots.mpr ⟨hc, hf⟩)
  obtain ⟨d, hd⟩ := List.exists_mem_of_ne_nil _ hu
  obtain ⟨hm, hf, hn⟩ := (mem_unreserved_open ho).mp hd
  exact hn (hr d hm hf).left

theorem not_nearlySpent_of_unreserved (hu : i.unreserved ≠ []) : ¬ i.NearlySpent := by
  rintro ⟨hr, _⟩
  have ho : i.openSlots = [] := openSlots_eq_nil.mpr fun c hc => (hr c hc).left
  obtain ⟨d, hd⟩ := List.exists_mem_of_ne_nil _ hu
  obtain ⟨hm, hn⟩ := (mem_unreserved_full ho).mp hd
  exact hn (hr d hm).right

theorem bestGood_le (h : i.bestGood = some t) (hc : c ∈ i.good) :
    t.full < c.full ∨ t.full = c.full ∧ c.routingLeft ≤ t.routingLeft := by
  have hle := List.le_of_mem_argmin hc h
  rw [Prod.Lex.toLex_le_toLex] at hle
  obtain hlt | ⟨he, hle⟩ := hle
  case inl => exact .inl hlt
  case inr =>
    refine .inr ⟨he, ?_⟩
    rw [Prod.Lex.toLex_le_toLex] at hle
    obtain hlt | ⟨he, _⟩ := hle
    case inl => exact (neg_lt_neg_iff.mp hlt).le
    case inr => exact (neg_inj.mp he).ge

variable (hu : i.unreserved = [])
include hu

theorem pool_eq_room : i.pool = i.room :=
  if_pos hu

theorem viable_eq_usable : i.viable = i.usable := by
  rw [viable, pool_eq_room hu, usable]

theorem mem_good_room : c ∈ i.good ↔ c ∈ i.room ∧ i.minLeft ≤ c.routingLeft := by
  rw [mem_good, pool_eq_room hu]

-- Then the free slots are all of the reserve.
theorem reserve_of_open (hc : c ∈ i.usable) (hf : ¬ c.full) : c.account ∈ i.reserve := by
  by_contra hr
  have ho : i.openSlots ≠ [] := List.ne_nil_of_mem (mem_openSlots.mpr ⟨hc, hf⟩)
  have hm := (mem_unreserved_open ho).mpr ⟨hc, hf, hr⟩
  rw [hu] at hm
  cases hm

theorem well_iff : i.Well t ↔ t ∈ i.usable ∧ (t.full → ∀ c ∈ i.usable, c.full) :=
  ⟨fun h => ⟨h.fits, h.full⟩, fun h => ⟨h.left, h.right, fun _ _ hc hf => reserve_of_open hu hc hf⟩⟩

-- A free slot with enough left is found.
theorem well_of_good (hc : c ∈ i.usable) (hf : ¬ c.full) (hl : i.minLeft ≤ c.routingLeft) (h : i.chosen = some t) :
    i.Well t := by
  have hg : c ∈ i.good := (mem_good_room hu).mpr ⟨(mem_usable.mp hc).left, hl⟩
  obtain ⟨best, hb⟩ := exists_bestGood hg
  obtain rfl : best = t := Option.some.inj ((chosen_of_bestGood hb).symm.trans h)
  have hm := (mem_good_room hu).mp (bestGood_mem hb)
  obtain hlt | ⟨he, hle⟩ := bestGood_le hb hg
  case inl =>
    rw [eq_false_of_ne_true hf] at hlt
    exact absurd hlt (Bool.false_le _).not_gt
  case inr =>
    have hleft : minRoutingLeft ≤ best.routingLeft := (mem_usable.mp hc).right.trans hle
    exact (well_iff hu).mpr ⟨mem_usable.mpr ⟨hm.left, hleft⟩, fun hfull => absurd (he ▸ hfull) hf⟩

theorem leastBad_iff : i.leastBad = some t ↔ t ∈ i.usable ∧ ∀ d ∈ i.usable, d ≠ t → Before i.usable t d := by
  rw [leastBad, viable_eq_usable hu, ← Option.mem_def, List.mem_argmin_iff]
  constructor
  case mp =>
    rintro ⟨hm, hle, hi⟩
    refine ⟨hm, fun d hd hne => ?_⟩
    obtain hlt | he := (hle d hd).lt_or_eq
    case inl => exact .inl hlt
    case inr =>
      have hidx : i.usable.idxOf t ≤ i.usable.idxOf d := hi d hd he.ge
      exact .inr ⟨he, hidx.lt_of_ne fun h => hne (List.idxOf_inj hm |>.mp h).symm⟩
  case mpr =>
    rintro ⟨hm, hb⟩
    refine ⟨hm, fun d hd => ?_, fun d hd hle => ?_⟩
    case refine_1 =>
      by_cases hd' : d = t
      case pos => rw [hd']
      case neg => exact (hb d hd hd').elim le_of_lt fun h => h.left.le
    case refine_2 =>
      by_cases hd' : d = t
      case pos => rw [hd']
      case neg =>
        obtain hlt | ⟨_, hlt⟩ := hb d hd hd'
        case inl => exact absurd hle hlt.not_ge
        case inr => exact hlt.le

-- Where no free slot has enough left, what is good is full.
theorem full_of_good (hn : ∀ c ∈ i.usable, ¬ c.full → c.routingLeft < i.minLeft) (hc : c ∈ i.usable) (hf : ¬ c.full)
    (ht : i.bestGood = some t) : t ∈ i.usable ∧ t.full ∧ i.minLeft ≤ t.routingLeft := by
  obtain ⟨hm, hl⟩ := (mem_good_room hu).mp (bestGood_mem ht)
  have hleft : minRoutingLeft ≤ t.routingLeft := (((mem_usable.mp hc).right.trans_lt (hn c hc hf)).trans_le hl).le
  have htu : t ∈ i.usable := mem_usable.mpr ⟨hm, hleft⟩
  refine ⟨htu, ?_, hl⟩
  by_contra hfull
  exact absurd hl (hn t htu hfull).not_ge

theorem well_iff_not_fullFirst (hc : c ∈ i.usable) (hf : ¬ c.full) :
    (∀ t, i.chosen = some t → i.Well t) ↔ ¬ i.FullFirst := by
  constructor
  case mp =>
    rintro h ⟨_, hr, hx⟩
    have hn : i.bestGood = none := by
      by_contra hs
      obtain ⟨t, ht⟩ := Option.ne_none_iff_exists'.mp hs
      have hg := full_of_good hu (fun c hc hf => (hr c hc hf).right) hc hf ht
      exact hf ((h t (chosen_of_bestGood ht)).full hg.right.left c hc)
    obtain ⟨d, hd, hfull, hl⟩ | ⟨hw, d, hd, hfull, hb⟩ := hx
    case inl =>
      obtain ⟨t, ht⟩ := exists_bestGood ((mem_good_room hu).mpr ⟨(mem_usable.mp hd).left, hl⟩)
      rw [hn] at ht
      cases ht
    case inr =>
      obtain ⟨t, ht⟩ : ∃ t, i.leastBad = some t :=
        Option.ne_none_iff_exists'.mp fun hn => List.ne_nil_of_mem hd (viable_eq_usable hu ▸ List.argmin_eq_none.mp hn)
      have hw := h t (by rw [chosen, if_neg hw, hn, Option.none_or, ht])
      have hopen : ¬ t.full := fun hf' => hf (hw.full hf' c hc)
      have hne : d ≠ t := by
        rintro rfl
        exact hopen hfull
      obtain hlt | ⟨_, hlt⟩ := ((leastBad_iff hu).mp ht).right d hd hne
      case inl =>
        obtain hlt' | ⟨he, _⟩ := hb t hw.fits hopen
        case inl => exact absurd hlt hlt'.asymm
        case inr => exact absurd he hlt.ne'
      case inr he =>
        obtain hlt' | ⟨_, hlt'⟩ := hb t hw.fits hopen
        case inl => exact absurd he hlt'.ne'
        case inr => exact absurd hlt hlt'.asymm
  case mpr =>
    intro hn t ht
    by_cases hg : ∃ c ∈ i.usable, ¬ c.full ∧ i.minLeft ≤ c.routingLeft
    case pos =>
      obtain ⟨d, hd, hf, hl⟩ := hg
      exact well_of_good hu hd hf hl ht
    case neg =>
      have hlow : ∀ c ∈ i.usable, ¬ c.full → c.routingLeft < i.minLeft :=
        fun d hd hf => not_le.mp fun hl => hg ⟨d, hd, hf, hl⟩
      have hr : ∀ c ∈ i.usable, ¬ c.full → c.account ∈ i.reserve ∧ c.routingLeft < i.minLeft :=
        fun d hd hf => ⟨reserve_of_open hu hd hf, hlow d hd hf⟩
      have hgood : i.bestGood ≠ some t := by
        intro hb
        obtain ⟨hm, hfull, hl⟩ := full_of_good hu hlow hc hf hb
        exact hn ⟨⟨c, hc, hf⟩, hr, .inl ⟨t, hm, hfull, hl⟩⟩
      rw [chosen] at ht
      by_cases hw : i.waits
      case pos => exact absurd (by simpa [hw] using ht) hgood
      case neg =>
        rw [if_neg hw, Option.or_eq_some_iff] at ht
        obtain ht | ⟨_, ht⟩ := ht
        case inl => exact absurd ht hgood
        case inr =>
          obtain ⟨hm, hb⟩ := (leastBad_iff hu).mp ht
          refine (well_iff hu).mpr ⟨hm, fun hfull => absurd ⟨⟨c, hc, hf⟩, hr, .inr ⟨hw, t, hm, hfull, ?_⟩⟩ hn⟩
          intro d hd hopen
          refine hb d hd ?_
          rintro rfl
          exact hopen hfull

theorem well_iff_not_nearlySpent (hf : ∀ c ∈ i.usable, c.full) :
    (∀ t, i.chosen = some t → i.Well t) ↔ ¬ i.NearlySpent := by
  have hr : ∀ c ∈ i.usable, c.account ∈ i.reserve := by
    intro c hc
    by_contra hn
    have hm := (mem_unreserved_full (openSlots_eq_nil.mpr hf)).mpr ⟨hc, hn⟩
    rw [hu] at hm
    cases hm
  constructor
  case mp =>
    rintro h ⟨_, c, hc, hl, hn⟩
    have hg : c ∈ i.good := (mem_good_room hu).mpr ⟨hc, hl⟩
    obtain ⟨t, ht⟩ := exists_bestGood hg
    have hm : t ∈ i.usable := (h t (chosen_of_bestGood ht)).fits
    obtain hn | hn := hn
    case inl =>
      -- A free slot that may not take a handoff goes before every full account.
      obtain hlt | ⟨he, _⟩ := bestGood_le ht hg
      · rw [hf t hm] at hlt
        exact absurd hlt (Bool.le_true _).not_gt
      · exact hn (he ▸ hf t hm)
    case inr =>
      rw [hn] at hm
      cases hm
  case mpr =>
    intro hn t ht
    refine (well_iff hu).mpr ⟨?_, fun _ => hf⟩
    obtain ht | ht := best_or_least ht
    case inr => exact usable_of_viable (leastBad_mem ht)
    case inl =>
      obtain ⟨hm, hl⟩ := (mem_good_room hu).mp (bestGood_mem ht)
      have hfull : t.full := by
        by_contra hopen
        exact hn ⟨fun c hc => ⟨hf c hc, hr c hc⟩, t, hm, hl, .inl hopen⟩
      obtain ⟨c, hc⟩ : ∃ c, c ∈ i.usable :=
        List.exists_mem_of_ne_nil _ fun he => hn ⟨fun c hc => ⟨hf c hc, hr c hc⟩, t, hm, hl, .inr he⟩
      have hle : c.routingLeft ≤ t.routingLeft := by
        by_cases hg : i.minLeft ≤ c.routingLeft
        case neg => exact (not_le.mp hg).le.trans hl
        case pos =>
          obtain hlt | ⟨_, hle⟩ := bestGood_le ht ((mem_good_room hu).mpr ⟨(mem_usable.mp hc).left, hg⟩)
          case inl => exact absurd (hfull ▸ hlt) (Bool.le_true _).not_gt
          case inr => exact hle
      exact mem_usable.mpr ⟨hm, (mem_usable.mp hc).right.trans hle⟩

end Pools

-- The choice is right as long as neither kind of mix is at hand.
theorem keeps_iff : i.Keeps ↔ i.account = "api" ∨ ¬ i.hit ∨ ¬ i.FullFirst ∧ ¬ i.NearlySpent := by
  by_cases ha : i.account = "api"
  case pos => exact iff_of_true (keeps_of_no_target (target_eq_none (by tauto))) (.inl ha)
  by_cases hh : i.hit
  case neg => exact iff_of_true (keeps_of_no_target (target_eq_none (by tauto))) (.inr (.inl hh))
  rw [keeps_iff_chosen ha hh, or_iff_right ha, or_iff_right (not_not.mpr hh)]
  by_cases hu : i.unreserved = []
  case neg =>
    exact iff_of_true (fun t => well_of_unreserved hu)
      ⟨not_fullFirst_of_unreserved hu, not_nearlySpent_of_unreserved hu⟩
  by_cases ho : ∃ c ∈ i.usable, ¬ c.full
  case pos =>
    obtain ⟨c, hc, hf⟩ := ho
    have hs : ¬ i.NearlySpent := fun h => hf (h.left c hc).left
    rw [well_iff_not_fullFirst hu hc hf, and_iff_left hs]
  case neg =>
    have hf : ∀ c ∈ i.usable, c.full := by simpa using ho
    have hs : ¬ i.FullFirst := fun h => ho h.left
    rw [well_iff_not_nearlySpent hu hf, and_iff_right hs]

-- The free slot of a reserve account with little left, and a full account with much.
def mixed : Inputs where
  account         := "main"
  fiveUsed        := 0
  weekUsed        := 99
  fiveReset       := none
  weekReset       := none
  others          := [⟨"full", 50, 50, 6, some 6, false⟩, ⟨"spare", 0, 90, 0, some 6, false⟩]
  push            := false
  fivePct         := 99
  weekPct         := 98
  minLeft         := 20
  waitMinWeekLeft := 10
  reserve         := ["spare"]

theorem not_keeps_mixed : ¬ mixed.Keeps := by
  intro h
  have ht : mixed.target = some ⟨"full", 50, 50, 6, some 6, false⟩ := by decide +kernel
  have hw := h.well _ ht (by decide)
  have hf := hw.full (by decide) ⟨"spare", 0, 90, 0, some 6, false⟩ (by decide +kernel)
  exact absurd hf (by decide)


end QuotaPolicy.Inputs
