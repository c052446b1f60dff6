import Agentihooks.Chunks.Theorems.Steps

namespace Chunks

variable {Key Owner : Type} [DecidableEq Key] [DecidableEq Owner]
variable {c : Config Key Owner} {s : State Key Owner}

-- Chunks go of which no key's message refers to their token and no write can still land.
theorem Sound.purge (h : Sound c s) {p : Subject Key Owner → Bool} (hn : ∀ k, p (.name k) = false)
    (hp : ∀ token i, p (.chunk token i) → ¬ Referenced c s token ∧
      ∀ w ∈ s.writers, w.token = token → s.CanSucceed w → ¬ w.Prompt c s.clock) :
    Sound c (s.purge p) ∧ Evolves c s (s.purge p) := by
  have heads : Advances s.log (s.log.purge p) := .purge hn
  have evolves : Evolves c s (s.purge p) := by
    refine ⟨le_rfl, le_rfl, fun w hw _ => ?_, fun m hm k _ => .inl (SubjectLog.mem_purge.mp hm).left⟩
    exact ⟨w, hw, rfl, fun _ hs => hs, heads.canSucceed (h.named w hw) rfl id⟩
  have keep {w : Writer Key Owner} {n : ℕ} (hk : Kept c s.log w n)
      (hc : ∀ i < (w.encoded c).pieces.length, ¬ p (.chunk w.token i)) : Kept c (s.log.purge p) w n :=
    fun i hi hl => SubjectLog.has_purge.mpr ⟨hk i hi hl, by simpa using hc i hl⟩
  refine ⟨⟨h.tokens, h.named, h.fresh, h.begun, ?_, ?_, ?_, ?_, ?_⟩, evolves⟩
  · intro w hw seq hs
    obtain ⟨k, hk⟩ := h.named w hw
    exact le_trans (h.landed w hw seq hs) (hk ▸ heads.lastOf_le k)
  · intro m hm token i hx
    exact h.chunks m (SubjectLog.mem_purge.mp hm).left token i hx
  · intro m hm k hx
    have hm := (SubjectLog.mem_purge.mp hm).left
    obtain ⟨w, hw, hl⟩ := h.values m hm k hx
    refine ⟨w, hw, hl.subject, hl.landed, hl.stored, hl.prompt, keep hl.kept fun i hi hpurge => ?_⟩
    have ht := (w.encoding c).tokenOf_of_piece hi
    exact (hp _ _ hpurge).left ⟨m, hm, ⟨k, hx⟩, hl.stored ▸ ht⟩
  · intro w hw index hst hc hprompt
    have hc := heads.canSucceed (h.named w hw) rfl id hc
    exact keep (h.staged w hw index hst hc hprompt) fun i _ hpurge => (hp _ _ hpurge).right w hw rfl hc hprompt
  · exact fun collector hcol => (h.collects collector hcol).evolves evolves

theorem Sound.withCollectors (h : Sound c s) {collectors : List (Collector Key Owner)}
    (hc : ∀ collector ∈ collectors, Collects c s collector.sweeping collector.phase) :
    Sound c { s with collectors } where
  tokens   := h.tokens
  named    := h.named
  fresh    := h.fresh
  begun    := h.begun
  landed   := h.landed
  chunks   := h.chunks
  values   := h.values
  staged   := h.staged
  collects := fun collector hcol => (hc collector hcol).evolves
    ⟨le_rfl, le_rfl, fun w hw _ => ⟨w, hw, rfl, fun _ hs => hs, id⟩, fun _ hm _ _ => .inl hm⟩

theorem Sound.addCollector (h : Sound c s) {collector : Collector Key Owner}
    (hc : Collects c s collector.sweeping collector.phase) : Sound c (s.addCollector collector) := by
  refine h.withCollectors fun other ho => ?_
  cases List.mem_append.mp ho
  case inl ho => exact h.collects other ho
  case inr ho => exact List.mem_singleton.mp ho ▸ hc

theorem Sound.discarded (h : Sound c s) {w : Writer Key Owner} (hw : w ∈ s.writers) (hst : w.stage = .refused) :
    ¬ Referenced c s w.token ∧ Lost s w.token := by
  constructor
  · intro ⟨m, hm, hr⟩
    obtain ⟨u, hu, ht, hl⟩ := h.referrer hm hr
    obtain rfl := h.eq_of_token hu hw ht
    exact absurd ((h.fresh u hu (.inr hst)).symm.trans hl.landed) (by simp)
  · intro u hu ht ⟨⟨index, hs⟩, _⟩
    obtain rfl := h.eq_of_token hu hw ht
    cases hst.symm.trans hs

def ofToken (token : Token Owner) (x : Subject Key Owner) : Bool :=
  x.chunk?.any fun n => n.1 = token

omit [DecidableEq Key] in
theorem ofToken_chunk {token token' : Token Owner} {i : ℕ} :
    ofToken token (.chunk token' i : Subject Key Owner) ↔ token' = token := by
  simp [ofToken, Subject.chunk?]

theorem Sound.discard (h : Sound c s) (i : ℕ) : Sound c (s.discard c i) := by
  unfold State.discard
  split
  case h_1      => exact h
  case h_2 w hi =>
    have hw : w ∈ s.writers := List.mem_iff_getElem?.mpr ⟨i, hi⟩
    split
    case h_2     => exact h
    case h_1 hst =>
      split
      case h_1          => exact h.setStage hi (fun _ hs => by cases hs) (fun hs => by cases hs)
      case h_2 token ht =>
        obtain rfl := (w.encoding c).tokenOf_eq ht
        obtain ⟨hr, hl⟩ := h.discarded hw hst
        refine (h.purge (fun _ => rfl) fun token' j hp => ?_).left.setStage hi (fun _ hs => by cases hs) (fun hs => by cases hs)
        obtain rfl := ofToken_chunk.mp hp
        exact ⟨hr, fun u hu he hc => absurd hc (hl u hu he)⟩

section Listing

omit [DecidableEq Key] in
theorem mem_listed {n : Token Owner × ℕ} : n ∈ s.listed ↔ s.log.Has (.chunk n.1 n.2) := by
  simp only [State.listed, List.mem_dedup, List.mem_filterMap, SubjectLog.Has]
  refine exists_congr fun m => and_congr_right fun _ => ?_
  cases m.subject <;> simp [Subject.chunk?, Prod.ext_iff]

omit [DecidableEq Owner] in
theorem mem_keys {k : Key} : k ∈ s.keys ↔ s.log.Has (.name k) := by
  simp only [State.keys, List.mem_dedup, List.mem_filterMap, SubjectLog.Has]
  refine exists_congr fun m => and_congr_right fun _ => ?_
  cases m.subject <;> simp [Subject.key?]

omit [DecidableEq Key] in
theorem mem_groups {names : List (Token Owner × ℕ)} {g : Group Owner} (h : g ∈ State.groups names) :
    ∃ i, (g.1, i) ∈ names := by
  obtain ⟨token, ht, rfl⟩ := List.mem_map.mp h
  obtain ⟨n, hn, rfl⟩ := List.mem_map.mp (List.mem_dedup.mp ht)
  exact ⟨n.2, hn⟩

theorem Sound.known (h : Sound c s) {n : Token Owner × ℕ} (hn : n ∈ s.listed) : n.1.nonce < s.writers.length := by
  obtain ⟨m, hm, hx⟩ := mem_listed.mp hn
  obtain ⟨w, hw, ht, _⟩ := h.chunks m hm _ _ hx
  exact ht ▸ h.nonce_lt hw

end Listing

omit [DecidableEq Key] [DecidableEq Owner] in
theorem ahead_of_mem {todo : List (Subject Key Owner)} {m : Entry Key Owner} (hm : m ∈ s.log.messages)
    (h : m.subject ∈ todo) : Ahead todo 1 m := by
  cases todo
  case nil         => exact absurd h (List.not_mem_nil)
  case cons x rest => exact (List.mem_cons.mp h).imp_left fun hx => ⟨hx, (s.log.bounded m hm).left⟩

-- The owner of a key is that of no other key.
theorem Sound.subject_eq (h : Sound c s) {w u : Writer Key Owner} (hw : w ∈ s.writers) (hu : u ∈ s.writers)
    (ho : c.owner u.write.subject = c.owner w.write.subject) : u.write.subject = w.write.subject := by
  obtain ⟨k, hk⟩ := h.named w hw
  obtain ⟨k', hk'⟩ := h.named u hu
  rw [hk, hk'] at ho ⊢
  rw [c.distinct k' k ho]

theorem Sound.below (h : Sound c s) {w : Writer Key Owner} (hw : w ∈ s.writers) {seq : ℕ}
    (hl : w.landed = some seq) : Collects c s false (.reading [w.write.subject] 1 (s.below c w.write.subject seq)) := by
  refine .reading fun g hg => ?_
  obtain ⟨i, hi⟩ := mem_groups hg
  obtain ⟨hi, hstale⟩ := List.mem_filter.mp hi
  obtain ⟨ho, hb⟩ := of_decide_eq_true hstale
  have owned {u : Writer Key Owner} (hu : u ∈ s.writers) (ht : u.token = g.1) : u.write.subject = w.write.subject :=
    h.subject_eq hw hu <| (h.owner_eq hu).left.symm.trans (ht ▸ ho)
  refine ⟨.lost (h.known hi) ?_, ?_⟩
  · intro u hu ht ⟨_, hc⟩
    have hbase : u.write.base = g.1.base := (h.owner_eq hu).right.symm.trans (congrArg Token.base ht)
    have hhead := h.landed w hw seq hl
    have hlast := SubjectLog.lastOf_le_last (s := s.log) (x := w.write.subject)
    rw [owned hu ht] at hc
    dsimp only at hb
    omega
  · intro m hm hr
    obtain ⟨u, hu, ht, hland⟩ := h.referrer hm hr
    exact ahead_of_mem hm (List.mem_singleton.mpr (hland.subject.symm.trans (owned hu ht)))

theorem Sound.reclaim (h : Sound c s) (i : ℕ) : Sound c (s.reclaim c i) := by
  unfold State.reclaim
  split
  case h_1      => exact h
  case h_2 w hi =>
    split
    case h_2            => exact h
    case h_1 seq hst hl =>
      have ended : Sound c (s.setStage i w .ended) := h.setStage hi (fun _ hs => by cases hs) (fun hs => by cases hs)
      have hlt := (List.getElem?_eq_some_iff.mp hi).choose
      have hw : { w with stage := .ended } ∈ (s.setStage i w .ended).writers :=
        List.mem_iff_getElem?.mpr ⟨i, List.getElem?_set_self hlt⟩
      dsimp only
      split_ifs
      · exact ended
      · exact ended.addCollector (ended.below hw hl)

theorem Sound.sweep (h : Sound c s) (now : ℕ) : Sound c (s.sweep now) := by
  unfold State.sweep
  split_ifs with hn
  case neg => exact h
  case pos =>
    refine h.addCollector (.aging rfl hn ?_ (fun _ hg => by cases hg) ?_)
    · intro g hg
      obtain ⟨i, hi⟩ := mem_groups hg
      exact h.known hi
    · exact fun m hm k hk _ => mem_keys.mpr ⟨m, hm, hk⟩

section Advance

variable {sweeping : Bool} {now cursor : ℕ} {listed stale : List (Group Owner)} {keys : List Key}
  {todo : List (Subject Key Owner)}

-- A chunk that is the idle time old tells that its whole write is.
theorem Sound.old_of_idle (h : Sound c s) {g : Group Owner} (hi : s.idle c now g) : Old c s now g.1 := by
  obtain ⟨m, hm, ht⟩ := (Option.any_eq_true _ _).mp hi
  obtain ⟨hm, hx, _⟩ := SubjectLog.get_eq_some hm
  obtain ⟨w, hw, he, _, since, hs, hle⟩ := h.chunks m hm _ _ hx
  intro u hu htoken
  obtain rfl := h.eq_of_token hu hw (htoken.trans he.symm)
  have ht := of_decide_eq_true ht
  exact ⟨since, hs, by omega⟩

theorem Sound.advance_keys (h : Sound c s) (hc : Collects c s sweeping (.aging now [] keys stale)) :
    Collects c s sweeping (.reading (State.owned c keys stale) 1 stale) := by
  cases hc with
  | aging hs hn _ ho hk =>
    refine .reading fun g hg => ?_
    obtain ⟨hlt, hold⟩ := ho g hg
    refine ⟨hs ▸ .old hlt hn hold, fun m hm hr => ?_⟩
    obtain ⟨w, hw, ht, hl⟩ := h.referrer hm hr
    obtain ⟨since, hsince, hle⟩ := hold w hw ht
    obtain ⟨⟨k, hx⟩, _⟩ := hr
    have hkey : k ∈ keys := hk m hm k hx (lt_of_lt_of_le (hl.prompt since hsince) hle)
    have howner : c.owner (.name k) = g.1.owner := by
      rw [← hx, ← hl.subject, ← ht]
      exact (h.owner_eq hw).left.symm
    refine ahead_of_mem hm (List.mem_filter.mpr ⟨hx ▸ List.mem_map_of_mem hkey, decide_eq_true ?_⟩)
    rw [hx, howner]
    exact List.mem_map_of_mem (f := fun g => g.1.owner) hg

theorem advance_next {x : Subject Key Owner} {m : Entry Key Owner} (hn : s.log.next x cursor = some m)
    (hc : Collects c s sweeping (.reading (x :: todo) cursor stale)) :
    Collects c s sweeping (.reading (x :: todo) (m.seq + 1) (State.unreferenced c m.data stale)) := by
  cases hc with
  | reading hr =>
    refine .reading fun g hg => ?_
    obtain ⟨hg, hne⟩ := List.mem_filter.mp hg
    obtain ⟨hd, ha⟩ := hr g hg
    obtain ⟨hm, hx, _, hle⟩ := SubjectLog.next_eq_some hn
    refine ⟨hd, fun m' hm' hr' => (ha m' hm' hr').imp_left fun hc => ⟨hc.left, ?_⟩⟩
    refine lt_of_le_of_ne (hle m' hm' hc.left hc.right) fun heq => ?_
    obtain rfl := SubjectLog.eq_of_seq hm hm' heq
    exact of_decide_eq_true hne hr'.right

theorem advance_none {x : Subject Key Owner} (hn : s.log.next x cursor = none)
    (hc : Collects c s sweeping (.reading (x :: todo) cursor stale)) :
    Collects c s sweeping (.reading todo 1 stale) := by
  cases hc with
  | reading hr =>
    refine .reading fun g hg => ⟨(hr g hg).left, fun m hm hr' => ?_⟩
    obtain ⟨hx, hcur⟩ | hrest := (hr g hg).right m hm hr'
    · exact absurd (SubjectLog.next_eq_none hn m hm hx) (not_lt.mpr hcur)
    · exact ahead_of_mem hm hrest

theorem Sound.advance (h : Sound c s) {phase : Phase Key Owner} (hc : Collects c s sweeping phase) :
    Collects c s sweeping (s.advance c phase).1 ∧
    ∀ n, (s.advance c phase).2 = some n → Dead c s sweeping n.1 ∧ ¬ Referenced c s n.1 := by
  cases phase with
  | aging now listed keys stale =>
    refine ⟨?_, fun n hn => ?_⟩ <;> cases listed
    case refine_1.nil => exact h.advance_keys hc
    case refine_1.cons g listed =>
      cases hc with
      | aging hs hle hl ho hk =>
        refine .aging hs hle (fun g' hg' => hl g' (List.mem_cons_of_mem _ hg')) (fun g' hg' => ?_) hk
        split_ifs at hg' with hi
        · cases List.mem_append.mp hg'
          case inl hg' => exact ho g' hg'
          case inr hg' =>
            obtain rfl := List.mem_singleton.mp hg'
            exact ⟨hl g' List.mem_cons_self, h.old_of_idle hi⟩
        · exact ho g' hg'
    all_goals cases hn
  | reading todo cursor stale =>
    cases todo with
    | nil =>
      refine ⟨?_, fun n hn => by cases hn⟩
      cases hc with
      | reading hr =>
        refine .purging fun n hn => ?_
        obtain ⟨g, hg, hn⟩ := List.mem_flatMap.mp hn
        obtain ⟨i, _, rfl⟩ := List.mem_map.mp hn
        refine ⟨(hr g hg).left, ?_⟩
        rintro ⟨m, hm, hm'⟩
        exact (hr g hg).right m hm hm'
    | cons x todo =>
      simp only [State.advance]
      split
      case h_1 hn   => exact ⟨advance_none hn hc, fun n hn => by cases hn⟩
      case h_2 m hn => exact ⟨advance_next hn hc, fun n hn => by cases hn⟩
  | purging names =>
    cases hc with
    | purging hp =>
      cases names with
      | nil => exact ⟨.purging hp, fun n hn => by cases hn⟩
      | cons name rest =>
        refine ⟨.purging fun n hn => hp n (List.mem_cons_of_mem _ hn), fun n hn => ?_⟩
        obtain rfl := Option.some.inj hn
        exact hp name List.mem_cons_self

end Advance

theorem Sound.collect (h : Sound c s) (j : ℕ) : Sound c (s.collect c j) := by
  unfold State.collect
  split
  case h_1              => exact h
  case h_2 collector hj =>
    obtain ⟨hphase, hpurged⟩ := h.advance (h.collects collector (List.mem_iff_getElem?.mpr ⟨j, hj⟩))
    obtain ⟨purged, evolves⟩ :=
      h.purge (p := fun x => decide (x.chunk?.isSome ∧ x.chunk? = (s.advance c collector.phase).2))
        (fun k => by simp [Subject.chunk?]) fun token i hp => by
          obtain ⟨_, hp⟩ := of_decide_eq_true hp
          obtain ⟨hd, hr⟩ := hpurged (token, i) hp.symm
          exact ⟨hr, fun w hw ht hc => hd.not_landing hw ht hc⟩
    refine purged.withCollectors fun other ho => ?_
    cases List.mem_or_eq_of_mem_set ho
    case inl ho => exact purged.collects other ho
    case inr ho => exact ho ▸ hphase.evolves evolves

theorem Sound.start : Sound c (.start : State Key Owner) := by
  constructor <;> simp [State.start, SubjectLog.empty]

theorem Sound.step (h : Sound c s) {e : Event Key Owner} (ha : Allowed c s e) : Sound c (step c s e) := by
  obtain ⟨hk, ht⟩ := ha
  cases e
  case tick n      => exact h.tick n
  case start write =>
    refine h.open_ ?_
    cases hs : write.subject
    case name k  => exact ⟨k, rfl⟩
    case chunk   => simp [OnKey, hs, Subject.key?] at hk
  case stage i     => exact h.stage i
  case commit i    => exact h.commit ht
  case discard i   => exact h.discard i
  case reclaim i   => exact h.reclaim i
  case sweep now   => exact h.sweep now
  case collect j   => exact h.collect j

-- Every retained revision of a key decodes to the bytes that the write which got the revision had.
def Decodes (c : Config Key Owner) (s : State Key Owner) : Prop :=
  ∀ m ∈ s.log.messages, ∀ k, m.subject = .name k →
    ∃ w ∈ s.writers, w.write.subject = .name k ∧ w.landed = some m.seq ∧
      decode c.codec (read s) m.data = some w.write.value

theorem Sound.decodes (h : Sound c s) : Decodes c s := by
  intro m hm k hk
  obtain ⟨w, hw, hl⟩ := h.values m hm k hk
  refine ⟨w, hw, hl.subject.trans hk, hl.landed, ?_⟩
  rw [hl.stored]
  refine (w.encoding c).decode_eq fun i chunk hp => ?_
  have hlen := (List.getElem?_eq_some_iff.mp hp).choose
  have has := hl.kept i hlen hlen
  cases hg : s.log.get (.chunk w.token i)
  case none    => exact absurd has (SubjectLog.get_eq_none.mp hg)
  case some m' =>
    obtain ⟨hm', hx, _⟩ := SubjectLog.get_eq_some hg
    obtain ⟨u, hu, ht, hp', _⟩ := h.chunks m' hm' _ _ hx
    obtain rfl := h.eq_of_token hu hw ht
    rw [read, hg, Option.map_some]
    exact hp'.symm.trans hp

def Sweeping (s : State Key Owner) (e : Event Key Owner) : Prop :=
  ∃ j collector, e = .collect j ∧ s.collectors[j]? = some collector ∧ collector.sweeping = true

-- A chunk that a step takes away belongs to no retained revision and, unless a sweep takes it, to no write that may
-- still land.
def Keeps (c : Config Key Owner) (s : State Key Owner) (e : Event Key Owner) : Prop :=
  ∀ token i, s.log.Has (.chunk token i) → ¬ (step c s e).log.Has (.chunk token i) →
    ¬ Referenced c s token ∧ (¬ Sweeping s e → ∀ w ∈ s.writers, w.token = token → ¬ s.CanSucceed w)

theorem has_of_publish {x y : Subject Key Owner} {base time : ℕ} {data : Bytes} {log : Log Key Owner}
    (h : s.log.publish c.retained y base data time = some log) (hx : s.log.Has x) : log.Has x := by
  unfold SubjectLog.publish at h
  split_ifs at h
  cases h
  exact hx.append c.retains

theorem has_stage {x : Subject Key Owner} (i : ℕ) (hx : s.log.Has x) : (s.stage c i).log.Has x := by
  unfold State.stage
  split
  case h_1   => exact hx
  case h_2 w _ =>
    split
    case h_2 => exact hx
    case h_1 =>
      split
      case h_1 => exact hx
      case h_2 => exact createChunk_has (.inl hx)

theorem has_commit {x : Subject Key Owner} (i : ℕ) (hx : s.log.Has x) : (s.commit c i).log.Has x := by
  unfold State.commit
  split
  case h_1   => exact hx
  case h_2 w _ =>
    split
    case h_2 => exact hx
    case h_1 =>
      split_ifs
      case neg => exact hx
      case pos =>
        unfold State.publish
        split
        case h_1       => exact hx
        case h_2 log h => exact has_of_publish h hx

omit [DecidableEq Key] in
theorem log_reclaim (i : ℕ) : (s.reclaim c i).log = s.log := by
  unfold State.reclaim
  split
  case h_1 => rfl
  case h_2 =>
    split
    case h_2 => rfl
    case h_1 =>
      dsimp only
      split_ifs <;> rfl

theorem Sound.keeps_discard (h : Sound c s) (i : ℕ) : Keeps c s (.discard i) := by
  intro token j hx hgone
  simp only [Chunks.step, State.discard] at hgone
  split at hgone
  case h_1      => exact absurd hx hgone
  case h_2 w hi =>
    have hw : w ∈ s.writers := List.mem_iff_getElem?.mpr ⟨i, hi⟩
    split at hgone
    case h_2     => exact absurd hx hgone
    case h_1 hst =>
      split at hgone
      case h_1           => exact absurd hx hgone
      case h_2 token' ht =>
        obtain rfl := (w.encoding c).tokenOf_eq ht
        have he : token = w.token := by
          by_contra hne
          exact hgone (SubjectLog.has_purge.mpr ⟨hx, by simpa [Subject.chunk?] using hne⟩)
        obtain ⟨hr, hl⟩ := h.discarded hw hst
        exact he ▸ ⟨hr, fun _ => hl⟩

theorem Sound.keeps_collect (h : Sound c s) (j : ℕ) : Keeps c s (.collect j) := by
  intro token i hx hgone
  simp only [Chunks.step, State.collect] at hgone
  split at hgone
  case h_1              => exact absurd hx hgone
  case h_2 collector hj =>
    have hpurged : (s.advance c collector.phase).2 = some (token, i) := by
      by_contra hne
      refine hgone (SubjectLog.has_purge.mpr ⟨hx, ?_⟩)
      simpa [Subject.chunk?] using Ne.symm hne
    obtain ⟨hd, hr⟩ := (h.advance (h.collects collector (List.mem_iff_getElem?.mpr ⟨j, hj⟩))).right _ hpurged
    refine ⟨hr, fun hs => ?_⟩
    cases hsweep : collector.sweeping
    case true  => exact absurd ⟨j, collector, rfl, hj, hsweep⟩ hs
    case false =>
      rw [hsweep] at hd
      cases hd with
      | lost _ hl => exact hl

theorem Sound.keeps (h : Sound c s) (e : Event Key Owner) : Keeps c s e := by
  cases e
  case discard i => exact h.keeps_discard i
  case collect j => exact h.keeps_collect j
  case tick n    => exact fun _ _ hx hgone => absurd hx hgone
  case start w   => exact fun _ _ hx hgone => absurd hx hgone
  case stage i   => exact fun _ _ hx hgone => absurd (has_stage i hx) hgone
  case commit i  => exact fun _ _ hx hgone => absurd (has_commit i hx) hgone
  case reclaim i => exact fun _ _ hx hgone => hgone (by rw [Chunks.step, log_reclaim]; exact hx) |>.elim
  case sweep now =>
    intro _ _ hx hgone
    simp only [Chunks.step, State.sweep] at hgone
    split_ifs at hgone <;> exact absurd hx hgone

-- The runs of a bucket whose writes are to keys and do not stay staged for the idle time.
theorem chunks_safe (c : Config Key Owner) (events : List (Event Key Owner))
    (h : Run.Along (step c) (Allowed c) .start events) :
    Decodes c (Run.run (step c) .start events) ∧ Run.Along (step c) (Keeps c) .start events := by
  have hs : ∀ s e, Sound c s → Allowed c s e → Sound c (step c s e) := fun _ _ hs ha => hs.step ha
  constructor
  · exact (h.invariant hs .start).decodes
  · exact h.of_invariant hs (fun _ e hs _ => hs.keeps e) .start

section Example

-- One key, a compression that leaves its input as it is, and references printed in unary.
def unary (n : ℕ) (rest : Bytes) : Bytes :=
  List.replicate n 0 ++ 1 :: rest

def ones (value : Bytes) : ℕ × Bytes :=
  ((value.takeWhile (· = 0)).length, (value.dropWhile (· = 0)).tail)

theorem ones_unary (n : ℕ) (rest : Bytes) : ones (unary n rest) = (n, rest) := by
  induction n
  case zero         => rfl
  case succ n hi    =>
    rw [ones, unary, Prod.mk.injEq] at hi
    simp [ones, unary, List.replicate_succ]

def plain : Codec Unit where
  compress         := id
  decompress       := some
  dumps token count := unary token.base (unary token.nonce (unary count []))
  loads value       :=
    let base := ones value
    let nonce := ones base.2
    some (⟨(), base.1, nonce.1⟩, (ones nonce.2).1)
  inflated _       := rfl
  parsed _ _       := by simp [ones_unary]

def bucket : Config Unit Unit where
  codec          := plain
  owner _        := ()
  distinct _ _ _ := rfl
  retained       := 1
  retains        := by decide
  idle           := 10

def large (byte : UInt8) (base : ℕ) : Write Unit Unit :=
  ⟨.name (), List.replicate 129 byte, base, 128, le_rfl⟩

-- Two large writes, one that loses against the second, and the sweep that follows.
def traffic : List (Event Unit Unit) :=
  [.start (large 7 0), .stage 0, .stage 0, .commit 0, .reclaim 0,
   .start (large 8 3), .start (large 9 3), .stage 1, .stage 2, .stage 1, .stage 2, .commit 1, .commit 2, .discard 2,
   .reclaim 1, .collect 0, .collect 0, .collect 0, .collect 0, .collect 0, .tick 20, .sweep 20,
   .collect 1, .collect 1, .collect 1, .collect 1, .collect 1]

theorem traffic_safe :
    Decodes bucket (Run.run (step bucket) .start traffic) ∧ Run.Along (step bucket) (Keeps bucket) .start traffic :=
  chunks_safe bucket traffic (by decide +kernel)

-- A write to the subject of a chunk.
def tamper : List (Event Unit Unit) :=
  [.start (large 7 0), .stage 0, .stage 0, .commit 0, .start ⟨.chunk ⟨(), 0, 0⟩ 0, [9], 1, 128, le_rfl⟩, .commit 1]

theorem tampered_undecodable :
    Run.Along (step bucket) (Timely bucket) .start tamper ∧ ¬ Decodes bucket (Run.run (step bucket) .start tamper) := by
  refine ⟨by decide +kernel, fun h => ?_⟩
  have hv : (((Run.run (step bucket) .start tamper).log.get (.name ())).map fun m => m.seq) = some 3 := by decide +kernel
  obtain ⟨m, hm, hseq⟩ := Option.map_eq_some_iff.mp hv
  obtain ⟨hmem, hx, _⟩ := SubjectLog.get_eq_some hm
  obtain ⟨w, hw, _, hl, hd⟩ := h m hmem () hx
  have hvalue : ∀ w ∈ (Run.run (step bucket) .start tamper).writers, w.landed = some 3 →
      w.write.value = List.replicate 129 7 := by decide +kernel
  have hread : (((Run.run (step bucket) .start tamper).log.get (.name ())).bind fun m =>
      decode plain (read (Run.run (step bucket) .start tamper)) m.data) ≠ some (List.replicate 129 7) := by
    decide +kernel
  rw [hm, Option.bind_some] at hread
  exact hread (hd.trans (congrArg some (hvalue w hw (hseq ▸ hl))))

end Example

end Chunks
