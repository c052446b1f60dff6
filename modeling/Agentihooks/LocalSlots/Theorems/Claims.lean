import Mathlib.Data.Finset.Card
import Agentihooks.LocalSlots.Claims

namespace LocalSlots

variable {hiveId : String} {scan : Scan} {claims : Claims} {request : Request} {s s' : State} {named : String}
  {claimed : ℤ}

theorem Scan.mem_pending :
    named ∈ scan.pending hiveId claims ↔ ∃ claimed, claims.lookup named = some claimed ∧ scan.Waits hiveId named claimed := by
  rw [Scan.pending, Finmap.mem_keys, Finmap.mem_iff]
  simp [Finmap.lookup_select_eq_some]

theorem Scan.pending_subset : scan.pending hiveId claims ⊆ claims.keys := by
  intro named h
  obtain ⟨_, hl, _⟩ := Scan.mem_pending.mp h
  exact Finmap.mem_keys.mpr (Finmap.mem_of_lookup_eq_some hl)

theorem Scan.count_held : (scan.held hiveId claims).count =
    (scan.workers hiveId).card + (scan.pending hiveId claims).card :=
  rfl

-- A claim that a scan does not count and that is there has its reason.
theorem Scan.settled_cases (h : claims.lookup named = some claimed) (hs : named ∈ (scan.held hiveId claims).settled) :
    (∃ agent ∈ scan.workers hiveId, EndsIn named agent) ∨
      (∃ task agent, scan.records.lookup named = some (task, agent) ∧
        (some task = scan.own ∨ agent.state ≠ .starting)) ∨ pendingMs ≤ scan.now - claimed := by
  have hw : ¬ scan.Waits hiveId named claimed := by
    intro hw
    exact (Finset.mem_sdiff.mp hs).right (Scan.mem_pending.mpr ⟨claimed, h, hw⟩)
  by_contra hn
  push Not at hn
  obtain ⟨ha, hr, ht⟩ := hn
  refine hw ⟨?_, ht, ?_⟩
  · rintro ⟨agent, hm, he⟩
    exact ha agent hm he
  · cases hl : scan.records.lookup named with
    | none     => rfl
    | some row => simpa using hr row.1 row.2 hl

-- Of names without a slash, only the agent's own ends its claim.
theorem endsIn_member {slug name agent : String} (hn : '/' ∉ name.toList) (ha : '/' ∉ agent.toList)
    (h : EndsIn (member slug name) agent) : agent = name := by
  obtain ⟨before, hb⟩ := h
  have hb : before ++ '/' :: agent.toList = slug.toList ++ '/' :: name.toList := by
    simpa [member, String.toList_append] using hb
  rcases List.append_eq_append_iff.mp hb with ⟨mid, hs, he⟩ | ⟨mid, hs, he⟩
  · cases mid with
    | nil         => exact String.toList_injective (by simpa using he)
    | cons c rest =>
      have hm : '/' ∈ agent.toList := by
        have := (List.cons.inj he).right
        simp [this]
      exact absurd hm ha
  · cases mid with
    | nil         => exact (String.toList_injective (by simpa using he)).symm
    | cons c rest =>
      have hm : '/' ∈ name.toList := by
        have := (List.cons.inj he).right
        simp [this]
      exact absurd hm hn

section Grant

variable (hiveId s request scan) (scan' : Scan)

theorem lookup_grant {settled : Finset String} : (s.grant request scan settled).claims.lookup named =
    if named = member request.slug request.name then some scan.now
    else if named ∈ settled then none else s.claims.lookup named := by
  rw [State.grant, Finmap.lookup_insert_ite]
  split <;> simp

-- What a granted claim leaves in the hash was pending, but for its own.
theorem keys_grant : (s.grant request scan (scan.held hiveId s.claims).settled).claims.keys ⊆
    insert (member request.slug request.name) (scan.pending hiveId s.claims) := by
  intro named h
  obtain ⟨claimed, hl⟩ := Finmap.mem_iff.mp (Finmap.mem_keys.mp h)
  rw [lookup_grant] at hl
  rw [Finset.mem_insert]
  split at hl
  case isTrue hn  => exact .inl hn
  case isFalse hn =>
    split at hl
    case isTrue => simp at hl
    case isFalse hs =>
      have hk : named ∈ s.claims.keys := Finmap.mem_keys.mpr (Finmap.mem_of_lookup_eq_some hl)
      by_contra hp
      exact hs (Finset.mem_sdiff.mpr ⟨hk, fun hm => hp (.inr hm)⟩)

-- Counted by any other scan, the slots are those of the granted claim's count, its own, and the workers that only the
-- other scan has.
theorem count_grant : (scan'.held hiveId (s.grant request scan (scan.held hiveId s.claims).settled).claims).count ≤
    (scan.held hiveId s.claims).count + 1 + (scan'.workers hiveId \ scan.workers hiveId).card := by
  have hp : (scan'.pending hiveId _).card ≤ _ :=
    Finset.card_le_card (Scan.pending_subset.trans (keys_grant hiveId scan request s))
  have hi := Finset.card_insert_le (member request.slug request.name) (scan.pending hiveId s.claims)
  have hw := Finset.card_le_card_sdiff_add_card (s := scan'.workers hiveId) (t := scan.workers hiveId)
  rw [Scan.count_held, Scan.count_held]
  omega

end Grant

-- What a call has read of the hash is what the hash holds, as long as nobody has written it since.
structure Fits (s : State) (version : ℕ) (claims : Claims) : Prop where
  reached   : version ≤ s.version
  unchanged : version = s.version → claims = s.claims

def Phase.Fits (s : State) (request : Request) : Phase → Prop
  | .called                      => True
  | .watched version _           => version ≤ s.version
  | .read version _ claims       => LocalSlots.Fits s version claims
  | .scanned version _ claims _  => LocalSlots.Fits s version claims
  | .sighted version claims scan => LocalSlots.Fits s version claims ∧ scan.own = some request.own

def Consistent (s : State) : Prop :=
  ∀ thread request phase, s.threads thread = some (request, phase) → phase.Fits s request

-- The hash is as it was, or somebody has written it.
structure Later (s s' : State) : Prop where
  reached   : s.version ≤ s'.version
  unchanged : s.version = s'.version → s.claims = s'.claims

namespace Later

theorem refl : Later s s :=
  ⟨le_rfl, fun _ => rfl⟩

theorem fits (h : Later s s') {version : ℕ} (hf : Fits s version claims) : Fits s' version claims where
  reached   := hf.reached.trans h.reached
  unchanged := fun hv => by
    have hs : version = s.version := le_antisymm hf.reached (hv ▸ h.reached)
    exact (hf.unchanged hs).trans (h.unchanged (hs.symm.trans hv))

theorem phase (h : Later s s') {phase : Phase} (hf : phase.Fits s request) : phase.Fits s' request := by
  cases phase with
  | called  => trivial
  | watched => exact Nat.le_trans hf h.reached
  | read    => exact h.fits hf
  | scanned => exact h.fits hf
  | sighted => exact ⟨h.fits hf.left, hf.right⟩

-- The thread's own phase is new, the others' are as they were.
theorem consistent (h : Later s s') (hi : Consistent s) (thread : ℕ)
    (ho : ∀ other ≠ thread, s'.threads other = s.threads other)
    (ht : ∀ request phase, s'.threads thread = some (request, phase) → phase.Fits s' request) : Consistent s' := by
  intro other request phase hp
  by_cases hn : other = thread
  case pos => exact ht request phase (hn ▸ hp)
  case neg => exact h.phase (hi other request phase ((ho other hn).symm.trans hp))

end Later

theorem State.move_self {thread : ℕ} {phase : Option (Request × Phase)} : (s.move thread phase).threads thread = phase := by
  simp [State.move]

theorem State.move_other {thread other : ℕ} {phase : Option (Request × Phase)} (h : other ≠ thread) :
    (s.move thread phase).threads other = s.threads other := by
  simp [State.move, h]

theorem later_recordsOnce {pass : Option ℕ} : Later s (s.recordsOnce pass).2 := by
  cases pass <;> exact ⟨le_rfl, fun _ => rfl⟩

theorem later_liveOnce {pass : Option ℕ} : Later s (s.liveOnce pass).2 := by
  cases pass <;> exact ⟨le_rfl, fun _ => rfl⟩

theorem threads_recordsOnce {pass : Option ℕ} : (s.recordsOnce pass).2.threads = s.threads := by
  cases pass <;> rfl

theorem threads_liveOnce {pass : Option ℕ} : (s.liveOnce pass).2.threads = s.threads := by
  cases pass <;> rfl

theorem later_grant {settled : Finset String} : Later s (s.grant request scan settled) where
  reached   := Nat.le_succ _
  unchanged := fun h => absurd h (Nat.succ_ne_self _).symm

theorem later_release {slug name : String} : Later s (s.release slug name) := by
  rw [State.release]
  split
  · exact ⟨Nat.le_succ _, fun h => absurd h (Nat.succ_ne_self _).symm⟩
  · exact .refl

section Advance

variable {thread version : ℕ}

theorem advance_sighted (h : s.threads thread = some (request, .sighted version claims scan)) :
    s.advance hiveId thread =
      if request.localMax ≤ (scan.held hiveId claims).count then
        (s.move thread none, some (scan.held hiveId claims).count)
      else if s.version = version then
        ((s.grant request scan (scan.held hiveId claims).settled).move thread none,
          some (scan.held hiveId claims).count)
      else (s.move thread (some (request, .called)), none) := by
  simp [State.advance, h]

-- A step that reads leaves the hash alone and returns nothing.
theorem advance_reads
    (h : ∀ request version claims scan, s.threads thread ≠ some (request, .sighted version claims scan)) :
    (s.advance hiveId thread).1.claims = s.claims ∧ (s.advance hiveId thread).2 = none := by
  rcases hp : s.threads thread with _ | ⟨request, phase⟩
  case none => simp [State.advance, hp]
  case some =>
    cases phase with
    | called  => simp [State.advance, hp, State.move]
    | watched => simp [State.advance, hp, State.move]
    | read    => cases hr : request.pass <;> simp [State.advance, hp, hr, State.move, State.recordsOnce]
    | scanned => cases hr : request.pass <;> simp [State.advance, hp, hr, State.move, State.liveOnce]
    | sighted => exact absurd hp (h _ _ _ _)

theorem consistent_move {t : State} (hl : Later s t) (hi : Consistent s) (ht : t.threads = s.threads)
    {phase : Option (Request × Phase)} (hp : ∀ request found, phase = some (request, found) → found.Fits t request) :
    Consistent (t.move thread phase) := by
  have hm : Later s (t.move thread phase) := ⟨hl.reached, hl.unchanged⟩
  refine hm.consistent hi thread (fun other hn => ?_) (fun request found hf => ?_)
  · rw [State.move_other hn, ht]
  · rw [State.move_self] at hf
    have hr : Later t (t.move thread phase) := ⟨le_rfl, fun _ => rfl⟩
    exact hr.phase (hp request found hf)

theorem consistent_advance (hi : Consistent s) : Consistent (s.advance hiveId thread).1 := by
  rcases hp : s.threads thread with _ | ⟨request, phase⟩
  case none => simpa [State.advance, hp] using hi
  case some =>
    have hf := hi thread request phase hp
    cases phase with
    | called =>
      simp only [State.advance, hp]
      refine consistent_move .refl hi rfl fun _ _ he => ?_
      cases he
      exact le_rfl
    | watched version now =>
      simp only [State.advance, hp]
      refine consistent_move .refl hi rfl fun _ _ he => ?_
      cases he
      exact ⟨hf, fun _ => rfl⟩
    | read version now claims =>
      simp only [State.advance, hp]
      refine consistent_move later_recordsOnce hi threads_recordsOnce fun _ _ he => ?_
      cases he
      exact later_recordsOnce.fits hf
    | scanned version now claims records =>
      simp only [State.advance, hp]
      refine consistent_move later_liveOnce hi threads_liveOnce fun _ _ he => ?_
      cases he
      exact ⟨later_liveOnce.fits hf, rfl⟩
    | sighted version claims scan =>
      rw [advance_sighted hp]
      split
      · exact consistent_move .refl hi rfl fun _ _ he => absurd he (by simp)
      · split
        · exact consistent_move later_grant hi rfl fun _ _ he => absurd he (by simp)
        · refine consistent_move .refl hi rfl fun _ _ he => ?_
          cases he
          trivial

end Advance

theorem consistent_later (h : Later s s') (ht : s'.threads = s.threads) (hi : Consistent s) : Consistent s' := by
  intro thread request phase hp
  exact h.phase (hi thread request phase (ht ▸ hp))

theorem consistent_step (e : Event) (hi : Consistent s) : Consistent (step hiveId s e) := by
  cases e with
  | call thread request =>
    rw [step]
    split
    · refine consistent_move .refl hi rfl fun _ _ he => ?_
      cases he
      trivial
    · exact hi
  | advance thread    => exact consistent_advance hi
  | release slug name =>
    refine consistent_later later_release ?_ hi
    simp only [step, State.release]
    split <;> rfl
  | write swarms      => exact consistent_later (s := s) ⟨le_rfl, fun _ => rfl⟩ rfl hi
  | sessions names    => exact consistent_later (s := s) ⟨le_rfl, fun _ => rfl⟩ rfl hi
  | pass ms           => exact consistent_later (s := s) ⟨le_rfl, fun _ => rfl⟩ rfl hi

theorem consistent_init {now : ℤ} : Consistent (init now) := by
  intro thread request phase hp
  simp [init] at hp

-- The call on the thread is about to return `counted` below its maximum: by what it scanned.
def Granted (hiveId : String) (s : State) (e : Event) (request : Request) (scan : Scan) (counted : ℤ) : Prop :=
  ∃ thread version claims, e = .advance thread ∧ s.threads thread = some (request, .sighted version claims scan) ∧
    (s.advance hiveId thread).2 = some counted ∧ counted < request.localMax

-- After a granted claim the slots are at most its maximum by its scan, and by the records and sessions of the moment
-- they are more by no more than the workers that its scan did not have.
def Bounded (hiveId : String) (s : State) (e : Event) : Prop :=
  ∀ request scan counted, Granted hiveId s e request scan counted →
    (scan.held hiveId (step hiveId s e).claims).count ≤ request.localMax ∧
    (step hiveId s e).held hiveId request.slug request.task ≤
      request.localMax + ((s.scan (some request.own)).workers hiveId \ scan.workers hiveId).card

-- The name of an agent that a claim ends in is the name of the claim's own agent, if no name has a slash.
def Absorbs (agent named : String) : Prop :=
  EndsIn named agent ∧
    ∀ slug name, named = member slug name → '/' ∉ name.toList → '/' ∉ agent.toList → agent = name

-- A claim leaves the hash by its release, or by a granted claim for a reason its scan has.
def Dropped (hiveId : String) (s : State) (e : Event) : Prop :=
  ∀ named claimed, s.claims.lookup named = some claimed → (step hiveId s e).claims.lookup named = none →
    (∃ slug name, e = .release slug name ∧ named = member slug name) ∨
    ∃ request scan counted, Granted hiveId s e request scan counted ∧
      ((∃ agent ∈ scan.workers hiveId, Absorbs agent named) ∨
        (∃ task agent, scan.records.lookup named = some (task, agent) ∧
          (task = request.own ∨ agent.state ≠ .starting)) ∨
        pendingMs ≤ scan.now - claimed)

section Steps

variable {e : Event}

-- What a granted claim did, and that it counted the slots it wrote.
theorem Granted.effect (hi : Consistent s) {counted : ℤ} (h : Granted hiveId s e request scan counted) :
    scan.own = some request.own ∧ (scan.held hiveId s.claims).count < request.localMax ∧
      ∃ thread, e = .advance thread ∧
        step hiveId s e = (s.grant request scan (scan.held hiveId s.claims).settled).move thread none := by
  obtain ⟨thread, version, claims, rfl, hp, ha, hm⟩ := h
  obtain ⟨hf, ho⟩ := hi thread request _ hp
  rw [advance_sighted hp] at ha
  rw [step, advance_sighted hp]
  by_cases hle : request.localMax ≤ (scan.held hiveId claims).count
  case pos =>
    rw [if_pos hle] at ha
    have hc : (scan.held hiveId claims).count = counted := Option.some.inj ha
    omega
  case neg =>
    rw [if_neg hle] at ha ⊢
    by_cases hv : s.version = version
    case neg =>
      rw [if_neg hv] at ha
      cases ha
    case pos =>
      obtain rfl := hf.unchanged hv.symm
      rw [if_pos hv]
      exact ⟨ho, not_le.mp hle, thread, rfl, rfl⟩

theorem bounded_step (hi : Consistent s) : Bounded hiveId s e := by
  intro request scan counted h
  obtain ⟨ho, hm, thread, rfl, hs⟩ := h.effect hi
  rw [hs]
  constructor
  · have hc := count_grant hiveId scan request s scan
    rw [Finset.sdiff_self, Finset.card_empty] at hc
    change (scan.held hiveId (s.grant request scan _).claims).count ≤ _
    omega
  · have hc := count_grant hiveId scan request s (s.scan (some request.own))
    change ((s.scan (some request.own)).held hiveId (s.grant request scan _).claims).count ≤ _
    omega

theorem dropped_advance (hi : Consistent s) {thread : ℕ} : Dropped hiveId s (.advance thread) := by
  intro named claimed hl hn
  right
  by_cases hp : ∃ request version claims scan, s.threads thread = some (request, .sighted version claims scan)
  case neg =>
    have hc : (step hiveId s (.advance thread)).claims = s.claims := by
      refine (advance_reads fun request version claims scan hs => ?_).left
      exact hp ⟨request, version, claims, scan, hs⟩
    rw [hc, hl] at hn
    cases hn
  case pos =>
    obtain ⟨request, version, claims, scan, hp⟩ := hp
    by_cases hg : Granted hiveId s (.advance thread) request scan (scan.held hiveId claims).count
    case neg =>
      have hc : (step hiveId s (.advance thread)).claims = s.claims := by
        rw [step, advance_sighted hp]
        by_cases hle : request.localMax ≤ (scan.held hiveId claims).count
        case pos =>
          rw [if_pos hle]
          rfl
        case neg =>
          by_cases hv : s.version = version
          case pos =>
            refine absurd ⟨thread, version, claims, rfl, hp, ?_, not_le.mp hle⟩ hg
            rw [advance_sighted hp, if_neg hle, if_pos hv]
          case neg =>
            rw [if_neg hle, if_neg hv]
            rfl
      rw [hc, hl] at hn
      cases hn
    case pos =>
      obtain ⟨ho, -, _, -, hs⟩ := hg.effect hi
      refine ⟨request, scan, _, hg, ?_⟩
      rw [hs] at hn
      change (s.grant request scan _).claims.lookup named = none at hn
      rw [lookup_grant] at hn
      split at hn
      case isTrue => cases hn
      case isFalse =>
        split at hn
        case isFalse =>
          rw [hl] at hn
          cases hn
        case isTrue hd =>
          rcases Scan.settled_cases hl hd with ⟨agent, hm, he⟩ | ⟨task, agent, hr, hw⟩ | ht
          · refine .inl ⟨agent, hm, he, ?_⟩
            rintro slug name rfl hname hagent
            exact endsIn_member hname hagent he
          · refine .inr (.inl ⟨task, agent, hr, hw.imp_left fun h => ?_⟩)
            exact Option.some.inj (h.trans ho)
          · exact .inr (.inr ht)

theorem dropped_step (hi : Consistent s) : Dropped hiveId s e := by
  have hk (h : (step hiveId s e).claims = s.claims) : Dropped hiveId s e := by
    intro named claimed hl hn
    rw [h, hl] at hn
    cases hn
  cases e with
  | call thread request =>
    refine hk ?_
    rw [step]
    split <;> rfl
  | advance thread => exact dropped_advance hi
  | release slug name =>
    intro named claimed hl hn
    refine .inl ⟨slug, name, rfl, ?_⟩
    by_contra he
    rw [step, State.release] at hn
    split at hn
    · rw [Finmap.lookup_erase_ne he, hl] at hn
      cases hn
    · rw [hl] at hn
      cases hn
  | write swarms   => exact hk rfl
  | sessions names => exact hk rfl
  | pass ms        => exact hk rfl

end Steps

theorem localSlots_run (hiveId : String) (now : ℤ) (es : List Event) :
    Run.Along (step hiveId) (fun s e => Bounded hiveId s e ∧ Dropped hiveId s e) (init now) es := by
  refine Run.Along.of_invariant (P := fun _ _ => True) (I := Consistent) (fun s e hi _ => consistent_step e hi)
    (fun s e hi _ => ⟨bounded_step hi, dropped_step hi⟩) consistent_init (.of_forall fun _ _ => trivial)

-- A call of `claim` with nothing in between.
def claiming (slug task name : String) (localMax : ℤ) : List Event :=
  .call 0 ⟨slug, task, name, localMax, none⟩ :: List.replicate 5 (.advance 0)

def agent (name task : String) (state : AgentState) : AgentRecord :=
  ⟨name, "eng", task, "", state, .local, ""⟩

-- A claim is dropped as its agent starts, by the next claim for its task. It is dropped as an agent of the same name
-- runs in another swarm. And a session that starts after the scan makes the slots one more than the maximum.
theorem slots_lost :
    (let s := Run.run (step "h") (init 0) (.write [("s", [agent "a" "t" .starting])] :: claiming "s" "t" "a" 2);
      s.claims.lookup "s/a" = some 0 ∧
      (Run.run (step "h") s (claiming "s" "t" "b" 2)).claims.lookup "s/a" = none) ∧
    (let s := Run.run (step "h") (init 0) (claiming "s" "t" "a" 2 ++ [.write [("r", [agent "a" "u" .working])]]);
      s.claims.lookup "s/a" = some 0 ∧
      (Run.run (step "h") s (claiming "s" "v" "b" 2)).claims.lookup "s/a" = none) ∧
    (let s := Run.run (step "h") (init 0) ((claiming "s" "t" "a" 1).take 5 ++ [.sessions ["b"]]);
      (s.advance "h" 0).2 = some 0 ∧ (step "h" s (.advance 0)).held "h" "s" "t" = 2) := by
  decide

end LocalSlots
