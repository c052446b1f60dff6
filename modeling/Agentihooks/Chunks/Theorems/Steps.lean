import Agentihooks.Chunks.System

namespace Chunks

variable {Key Owner : Type} [DecidableEq Key] [DecidableEq Owner]
variable {c : Config Key Owner} {s s' : State Key Owner}

abbrev Entry (Key Owner : Type) := SubjectLog.Message (Subject Key Owner) Bytes

def Writer.Staging (w : Writer Key Owner) : Prop :=
  ∃ index, w.stage = .staging index

-- A writer that has no revision and no chunk of a revision.
def Writer.Unlanded (w : Writer Key Owner) : Prop :=
  w.Staging ∨ w.stage = .refused

-- The writer's compare-and-set may still win: its key is at the expected revision or may still come to it.
def State.CanSucceed (s : State Key Owner) (w : Writer Key Owner) : Prop :=
  w.Staging ∧ (s.log.lastOf w.write.subject = w.write.base ∨ s.log.last < w.write.base)

-- The writer's first chunk is not yet as old as the sweep's idle time.
def Writer.Prompt (c : Config Key Owner) (clock : ℕ) (w : Writer Key Owner) : Prop :=
  ∀ since, w.since = some since → clock < since + c.idle

-- No write stays staged as long as the idle time.
def Timely (c : Config Key Owner) (s : State Key Owner) : Event Key Owner → Prop
  | .commit i => ∀ w, s.writers[i]? = some w → w.Staging → w.Prompt c s.clock
  | _         => True

-- Writes are to keys, which the subjects of the chunks are none of.
def OnKey : Event Key Owner → Prop
  | .start write => write.subject.key?.isSome
  | _            => True

def Allowed (c : Config Key Owner) (s : State Key Owner) (e : Event Key Owner) : Prop :=
  OnKey e ∧ Timely c s e

instance (w : Writer Key Owner) : Decidable w.Staging :=
  match h : w.stage with
  | .staging index                  => .isTrue ⟨index, h⟩
  | .refused | .committed | .ended  => .isFalse fun ⟨_, hs⟩ => nomatch h.symm.trans hs

instance (clock : ℕ) (w : Writer Key Owner) : Decidable (w.Prompt c clock) :=
  match h : w.since with
  | none       => .isTrue fun _ hs => nomatch h.symm.trans hs
  | some since =>
    if hlt : clock < since + c.idle then .isTrue fun _ hs => Option.some.inj (h.symm.trans hs) ▸ hlt
    else .isFalse fun hp => hlt (hp since h)

instance (e : Event Key Owner) : Decidable (Timely c s e) :=
  match e with
  | .commit i =>
    match h : s.writers[i]? with
    | none   => .isTrue fun _ hw => nomatch h.symm.trans hw
    | some w =>
      decidable_of_iff (w.Staging → w.Prompt c s.clock)
        ⟨fun hp _ hw => Option.some.inj (h.symm.trans hw) ▸ hp, fun hp => hp w h⟩
  | .tick _ | .start _ | .stage _ | .discard _ | .reclaim _ | .sweep _ | .collect _ => .isTrue trivial

instance (e : Event Key Owner) : Decidable (OnKey e) :=
  match e with
  | .start write => inferInstanceAs (Decidable (write.subject.key?.isSome = true))
  | .tick _ | .commit _ | .stage _ | .discard _ | .reclaim _ | .sweep _ | .collect _ => .isTrue trivial

instance (e : Event Key Owner) : Decidable (Allowed c s e) :=
  inferInstanceAs (Decidable (_ ∧ _))

def Refers (c : Config Key Owner) (m : Entry Key Owner) (token : Token Owner) : Prop :=
  (∃ k, m.subject = .name k) ∧ tokenOf c.codec m.data = some token

def Referenced (c : Config Key Owner) (s : State Key Owner) (token : Token Owner) : Prop :=
  ∃ m ∈ s.log.messages, Refers c m token

def Old (c : Config Key Owner) (s : State Key Owner) (now : ℕ) (token : Token Owner) : Prop :=
  ∀ w ∈ s.writers, w.token = token → ∃ since, w.since = some since ∧ since + c.idle ≤ now

def Lost (s : State Key Owner) (token : Token Owner) : Prop :=
  ∀ w ∈ s.writers, w.token = token → ¬ s.CanSucceed w

-- A token whose write can no longer be committed: a reclaimed one has lost its key's revision, a swept one is too old.
inductive Dead (c : Config Key Owner) (s : State Key Owner) : Bool → Token Owner → Prop
  | lost {token : Token Owner} : token.nonce < s.writers.length → Lost s token → Dead c s false token
  | old {token : Token Owner} {now : ℕ} :
    token.nonce < s.writers.length → now ≤ s.clock → Old c s now token → Dead c s true token

-- A message that a collector still comes to.
def Ahead (todo : List (Subject Key Owner)) (cursor : ℕ) (m : Entry Key Owner) : Prop :=
  match todo with
  | []        => False
  | x :: rest => m.subject = x ∧ cursor ≤ m.seq ∨ m.subject ∈ rest

inductive Collects (c : Config Key Owner) (s : State Key Owner) (sweeping : Bool) : Phase Key Owner → Prop
  | aging {now : ℕ} {listed stale : List (Group Owner)} {keys : List Key} :
    sweeping = true → now ≤ s.clock →
    (∀ g ∈ listed, g.1.nonce < s.writers.length) →
    (∀ g ∈ stale, g.1.nonce < s.writers.length ∧ Old c s now g.1) →
    (∀ m ∈ s.log.messages, ∀ k, m.subject = .name k → m.time < now → k ∈ keys) →
    Collects c s sweeping (.aging now listed keys stale)
  | reading {todo : List (Subject Key Owner)} {cursor : ℕ} {stale : List (Group Owner)} :
    (∀ g ∈ stale, Dead c s sweeping g.1 ∧ ∀ m ∈ s.log.messages, Refers c m g.1 → Ahead todo cursor m) →
    Collects c s sweeping (.reading todo cursor stale)
  | purging {names : List (Token Owner × ℕ)} :
    (∀ n ∈ names, Dead c s sweeping n.1 ∧ ¬ Referenced c s n.1) →
    Collects c s sweeping (.purging names)

-- The first `n` chunks of a writer are in the log.
def Kept (c : Config Key Owner) (log : Log Key Owner) (w : Writer Key Owner) (n : ℕ) : Prop :=
  ∀ i < n, i < (w.encoded c).pieces.length → log.Has (.chunk w.token i)

structure Landed (c : Config Key Owner) (log : Log Key Owner) (m : Entry Key Owner) (w : Writer Key Owner) :
    Prop where
  subject : w.write.subject = m.subject
  landed  : w.landed = some m.seq
  stored  : m.data = (w.encoded c).stored
  prompt  : ∀ since, w.since = some since → m.time < since + c.idle
  kept    : Kept c log w (w.encoded c).pieces.length

structure Sound (c : Config Key Owner) (s : State Key Owner) : Prop where
  tokens   : ∀ (i : ℕ) (w : Writer Key Owner), s.writers[i]? = some w → w.token = ⟨c.owner w.write.subject, w.write.base, i⟩
  named    : ∀ w ∈ s.writers, ∃ k, w.write.subject = .name k
  fresh    : ∀ w ∈ s.writers, w.Unlanded → w.landed = none
  begun    : ∀ w ∈ s.writers, ∀ since, w.since = some since → since ≤ s.clock
  landed   : ∀ w ∈ s.writers, ∀ seq, w.landed = some seq → seq ≤ s.log.lastOf w.write.subject
  chunks   : ∀ m ∈ s.log.messages, ∀ token i, m.subject = .chunk token i → ∃ w ∈ s.writers,
    w.token = token ∧ (w.encoded c).pieces[i]? = some m.data ∧ ∃ since, w.since = some since ∧ since ≤ m.time
  values   : ∀ m ∈ s.log.messages, ∀ k, m.subject = .name k → ∃ w ∈ s.writers, Landed c s.log m w
  staged   : ∀ w ∈ s.writers, ∀ index, w.stage = .staging index → s.CanSucceed w → w.Prompt c s.clock →
    Kept c s.log w index
  collects : ∀ collector ∈ s.collectors, Collects c s collector.sweeping collector.phase

omit [DecidableEq Key] [DecidableEq Owner] in
theorem Writer.encoding (c : Config Key Owner) (w : Writer Key Owner) :
    Encoding c.codec w.token w.write.value (w.encoded c) :=
  Chunks.encoding (lt_of_lt_of_le (by decide) w.write.roomy)

namespace Sound

theorem nonce_lt (h : Sound c s) {w : Writer Key Owner} (hw : w ∈ s.writers) : w.token.nonce < s.writers.length := by
  obtain ⟨i, hi⟩ := List.mem_iff_getElem?.mp hw
  rw [h.tokens i w hi]
  exact (List.getElem?_eq_some_iff.mp hi).choose

theorem eq_of_token (h : Sound c s) {w v : Writer Key Owner} (hw : w ∈ s.writers) (hv : v ∈ s.writers)
    (ht : w.token = v.token) : w = v := by
  obtain ⟨i, hi⟩ := List.mem_iff_getElem?.mp hw
  obtain ⟨j, hj⟩ := List.mem_iff_getElem?.mp hv
  rw [h.tokens i w hi, h.tokens j v hj] at ht
  have hij : i = j := congrArg Token.nonce ht
  exact Option.some.inj <| hi.symm.trans (hij ▸ hj)

-- The write behind a message that refers to a token.
theorem referrer (h : Sound c s) {m : Entry Key Owner} (hm : m ∈ s.log.messages) {token : Token Owner}
    (hr : Refers c m token) : ∃ w ∈ s.writers, w.token = token ∧ Landed c s.log m w := by
  obtain ⟨⟨k, hk⟩, ht⟩ := hr
  obtain ⟨w, hw, hl⟩ := h.values m hm k hk
  refine ⟨w, hw, ?_, hl⟩
  rw [hl.stored] at ht
  exact (w.encoding c).tokenOf_eq ht |>.symm

theorem owner_eq (h : Sound c s) {w : Writer Key Owner} (hw : w ∈ s.writers) :
    w.token.owner = c.owner w.write.subject ∧ w.token.base = w.write.base := by
  obtain ⟨i, hi⟩ := List.mem_iff_getElem?.mp hw
  rw [h.tokens i w hi]
  exact ⟨rfl, rfl⟩

end Sound

-- What a step of anyone else may change about a state that a collector knows something of.
structure Evolves (c : Config Key Owner) (s s' : State Key Owner) : Prop where
  clock    : s.clock ≤ s'.clock
  length   : s.writers.length ≤ s'.writers.length
  writers  : ∀ w' ∈ s'.writers, w'.token.nonce < s.writers.length → ∃ w ∈ s.writers, w.token = w'.token ∧
    (∀ since, w.since = some since → w'.since = some since) ∧ (s'.CanSucceed w' → s.CanSucceed w)
  messages : ∀ m ∈ s'.log.messages, ∀ k, m.subject = .name k → m ∈ s.log.messages ∨ s.clock ≤ m.time ∧
    ∀ token, tokenOf c.codec m.data = some token →
      ∃ w ∈ s.writers, w.token = token ∧ s.CanSucceed w ∧ w.Prompt c s.clock

namespace Evolves

variable {token : Token Owner} {sweeping : Bool}

theorem lost (h : Evolves c s s') (hk : token.nonce < s.writers.length) (hl : Lost s token) : Lost s' token := by
  intro w' hw' ht hc
  obtain ⟨w, hw, he, _, hs⟩ := h.writers w' hw' (ht ▸ hk)
  exact hl w hw (he.trans ht) (hs hc)

theorem old (h : Evolves c s s') {now : ℕ} (hk : token.nonce < s.writers.length) (ho : Old c s now token) :
    Old c s' now token := by
  intro w' hw' ht
  obtain ⟨w, hw, he, hs, _⟩ := h.writers w' hw' (ht ▸ hk)
  obtain ⟨since, hsince, hle⟩ := ho w hw (he.trans ht)
  exact ⟨since, hs since hsince, hle⟩

theorem dead (h : Evolves c s s') (hd : Dead c s sweeping token) : Dead c s' sweeping token := by
  obtain ⟨hk, hl⟩ | ⟨hk, hn, ho⟩ := hd
  · exact .lost (lt_of_lt_of_le hk h.length) (h.lost hk hl)
  · exact .old (lt_of_lt_of_le hk h.length) (le_trans hn h.clock) (h.old hk ho)

end Evolves

-- A dead token's write does not land any more.
theorem Dead.not_landing {token : Token Owner} {sweeping : Bool} (h : Dead c s sweeping token)
    {w : Writer Key Owner} (hw : w ∈ s.writers) (ht : w.token = token) (hc : s.CanSucceed w) :
    ¬ w.Prompt c s.clock := by
  intro hp
  obtain ⟨_, hl⟩ | ⟨_, hn, ho⟩ := h
  · exact hl w hw ht hc
  · obtain ⟨since, hs, hle⟩ := ho w hw ht
    have hlt := hp since hs
    omega

theorem Evolves.message {token : Token Owner} {sweeping : Bool} (h : Evolves c s s') (hd : Dead c s sweeping token)
    {m : Entry Key Owner} (hm : m ∈ s'.log.messages) (hr : Refers c m token) : m ∈ s.log.messages := by
  obtain ⟨⟨k, hk⟩, ht⟩ := hr
  refine (h.messages m hm k hk).resolve_right fun ⟨_, hn⟩ => ?_
  obtain ⟨w, hw, he, hc, hp⟩ := hn token ht
  exact hd.not_landing hw he hc hp

theorem Collects.evolves {sweeping : Bool} {phase : Phase Key Owner} (hc : Collects c s sweeping phase)
    (h : Evolves c s s') : Collects c s' sweeping phase := by
  cases hc
  case aging now _ _ _ hs hn hl ho hk =>
    refine .aging hs (le_trans hn h.clock) (fun g hg => lt_of_lt_of_le (hl g hg) h.length) ?_ ?_
    · intro g hg
      obtain ⟨hlt, hold⟩ := ho g hg
      exact ⟨lt_of_lt_of_le hlt h.length, h.old hlt hold⟩
    · intro m hm k hmk ht
      obtain hm | ⟨hle, _⟩ := h.messages m hm k hmk
      · exact hk m hm k hmk ht
      · omega
  case reading hr =>
    refine .reading fun g hg => ?_
    obtain ⟨hd, ha⟩ := hr g hg
    exact ⟨h.dead hd, fun m hm hm' => ha m (h.message hd hm hm') hm'⟩
  case purging hp =>
    refine .purging fun n hn => ?_
    obtain ⟨hd, hr⟩ := hp n hn
    exact ⟨h.dead hd, fun ⟨m, hm, hm'⟩ => hr ⟨m, h.message hd hm hm', hm'⟩⟩

end Chunks

namespace Chunks

variable {Key Owner : Type} [DecidableEq Key] [DecidableEq Owner]
variable {c : Config Key Owner} {s : State Key Owner}

-- What a change of the log does to the newest revisions of the keys.
structure Advances (log log' : Log Key Owner) : Prop where
  last  : log.last ≤ log'.last
  heads : ∀ k, log'.lastOf (.name k) = log.lastOf (.name k) ∨ log.last < log'.lastOf (.name k)

namespace Advances

variable {log log' : Log Key Owner}

theorem refl : Advances log log :=
  ⟨le_rfl, fun _ => .inl rfl⟩

theorem lastOf_le (h : Advances log log') (k : Key) : log.lastOf (.name k) ≤ log'.lastOf (.name k) := by
  have hl := SubjectLog.lastOf_le_last (s := log) (x := .name k)
  have hh := h.heads k
  omega

theorem canSucceed (h : Advances s.log log') {clock : ℕ} {writers : List (Writer Key Owner)}
    {collectors : List (Collector Key Owner)} {w v : Writer Key Owner} (hn : ∃ k, w.write.subject = .name k)
    (hw : v.write = w.write) (hs : v.Staging → w.Staging)
    (hc : State.CanSucceed ⟨clock, log', writers, collectors⟩ v) : s.CanSucceed w := by
  obtain ⟨k, hk⟩ := hn
  obtain ⟨hstage, hsub⟩ := hc
  rw [hw, hk] at hsub
  refine ⟨hs hstage, ?_⟩
  rw [hk]
  have hl := h.last
  have hh := h.heads k
  dsimp only at hsub
  omega

theorem publish {x : Subject Key Owner} {base : ℕ} {data : Bytes} {time retained : ℕ} (hr : 0 < retained)
    (h : log.publish retained x base data time = some log') : Advances log log' := by
  unfold SubjectLog.publish at h
  split_ifs at h
  cases h
  refine ⟨Nat.le_succ _, fun k => ?_⟩
  by_cases hk : x = .name k
  case pos =>
    rw [← hk, SubjectLog.lastOf_append_self hr]
    exact .inr (Nat.lt_succ_self _)
  case neg => exact .inl (SubjectLog.lastOf_append_of_ne (Ne.symm hk))

theorem purge {p : Subject Key Owner → Bool} (hp : ∀ k, p (.name k) = false) : Advances log (log.purge p) :=
  ⟨le_rfl, fun k => .inl (SubjectLog.lastOf_purge (hp k))⟩

end Advances

-- The same write, further on.
structure Writer.Extends (w v : Writer Key Owner) : Prop where
  write  : v.write = w.write
  token  : v.token = w.token
  since  : ∀ since, w.since = some since → v.since = some since
  landed : ∀ seq, w.landed = some seq → v.landed = some seq ∧ v.since = w.since

namespace Writer.Extends

variable {w v : Writer Key Owner}

omit [DecidableEq Key] [DecidableEq Owner]

theorem refl : w.Extends w :=
  ⟨rfl, rfl, fun _ h => h, fun _ h => ⟨h, rfl⟩⟩

theorem encoded_eq (h : w.Extends v) : v.encoded c = w.encoded c := by
  rw [Writer.encoded, Writer.encoded, h.write, h.token]

theorem prompt (h : w.Extends v) {clock : ℕ} (hp : v.Prompt c clock) : w.Prompt c clock :=
  fun since hs => hp since (h.since since hs)

theorem kept (h : w.Extends v) {log log' : Log Key Owner} (hs : ∀ x, log.Has x → log'.Has x) {n : ℕ}
    (hk : Kept c log w n) : Kept c log' v n := by
  intro i hi hl
  rw [h.encoded_eq] at hl
  rw [h.token]
  exact hs _ (hk i hi hl)

theorem landed_message (h : w.Extends v) {log log' : Log Key Owner} (hs : ∀ x, log.Has x → log'.Has x)
    {m : Entry Key Owner} (hl : Landed c log m w) : Landed c log' m v where
  subject := h.write ▸ hl.subject
  landed  := (h.landed _ hl.landed).left
  stored  := h.encoded_eq (c := c) ▸ hl.stored
  prompt  := fun since hsince => hl.prompt since ((h.landed _ hl.landed).right ▸ hsince)
  kept    := by
    rw [h.encoded_eq]
    exact h.kept hs hl.kept

end Writer.Extends

-- A new message of a writer: a chunk of its own, or its value under the key.
structure Adds (c : Config Key Owner) (s : State Key Owner) (log : Log Key Owner) (w v : Writer Key Owner)
    (m : Entry Key Owner) : Prop where
  chunk : ∀ token i, m.subject = .chunk token i → v.token = token ∧ (v.encoded c).pieces[i]? = some m.data ∧
    ∃ since, v.since = some since ∧ since ≤ m.time
  value : ∀ k, m.subject = .name k → Landed c log m v ∧ s.CanSucceed w ∧ w.Prompt c s.clock ∧ s.clock ≤ m.time

section Set

variable {i : ℕ} {w v : Writer Key Owner} {log : Log Key Owner}

omit [DecidableEq Key] [DecidableEq Owner] in
theorem mem_set_image {ws : List (Writer Key Owner)} (hi : ws[i]? = some w) (he : w.Extends v)
    {u : Writer Key Owner} (hu : u ∈ ws) : ∃ u' ∈ ws.set i v, u.Extends u' := by
  obtain ⟨j, hj⟩ := List.mem_iff_getElem?.mp hu
  by_cases hij : i = j
  case pos =>
    subst hij
    obtain rfl := Option.some.inj (hi.symm.trans hj)
    obtain ⟨hlt, _⟩ := List.getElem?_eq_some_iff.mp hi
    exact ⟨v, List.mem_iff_getElem?.mpr ⟨i, by simp [hlt]⟩, he⟩
  case neg =>
    exact ⟨u, List.mem_iff_getElem?.mpr ⟨j, by rw [List.getElem?_set_ne hij, hj]⟩, .refl⟩

-- A step of one writer, with what it publishes.
theorem Sound.set (h : Sound c s) (hi : s.writers[i]? = some w) (he : w.Extends v) (ha : Advances s.log log)
    (hh : ∀ x, s.log.Has x → log.Has x) (hv : v.Staging → w.Staging) (hf : v.Unlanded → v.landed = none)
    (hb : ∀ since, v.since = some since → since ≤ s.clock)
    (hl : ∀ seq, v.landed = some seq → seq ≤ log.lastOf v.write.subject)
    (hm : ∀ m ∈ log.messages, m ∈ s.log.messages ∨ Adds c s log w v m)
    (hs : ∀ index, v.stage = .staging index → s.CanSucceed w → w.Prompt c s.clock → Kept c log v index) :
    Sound c { s with log, writers := s.writers.set i v } := by
  have hw : w ∈ s.writers := List.mem_iff_getElem?.mpr ⟨i, hi⟩
  have hlt := (List.getElem?_eq_some_iff.mp hi).choose
  have named : ∀ u ∈ s.writers.set i v, ∃ k, u.write.subject = .name k := fun u hu => by
    cases List.mem_or_eq_of_mem_set hu
    case inl hu => exact h.named u hu
    case inr hu => exact hu ▸ he.write ▸ h.named w hw
  have evolves : Evolves c s { s with log, writers := s.writers.set i v } := by
    refine ⟨le_rfl, by simp, fun u hu _ => ?_, fun m hmem k hk => ?_⟩
    · cases List.mem_or_eq_of_mem_set hu
      case inl hu => exact ⟨u, hu, rfl, fun _ h => h, ha.canSucceed (h.named u hu) rfl id⟩
      case inr hu =>
        subst hu
        exact ⟨w, hw, he.token.symm, he.since, ha.canSucceed (h.named w hw) he.write hv⟩
    · refine (hm m hmem).imp_right fun hadd => ?_
      obtain ⟨hland, hc, hp, ht⟩ := hadd.value k hk
      refine ⟨ht, fun token htoken => ⟨w, hw, ?_, hc, hp⟩⟩
      rw [hland.stored] at htoken
      rw [← he.token]
      exact (v.encoding c).tokenOf_eq htoken |>.symm
  constructor
  case tokens =>
    intro j u hj
    dsimp only at hj
    by_cases hij : i = j
    case pos =>
      subst hij
      rw [List.getElem?_set_self hlt] at hj
      obtain rfl := Option.some.inj hj
      rw [he.token, he.write]
      exact h.tokens i w hi
    case neg => exact h.tokens j u (List.getElem?_set_ne hij ▸ hj)
  case named => exact named
  case fresh =>
    intro u hu hst
    cases List.mem_or_eq_of_mem_set hu
    case inl hu => exact h.fresh u hu hst
    case inr hu => exact hu ▸ hf (hu ▸ hst)
  case begun =>
    intro u hu since hsince
    cases List.mem_or_eq_of_mem_set hu
    case inl hu => exact h.begun u hu since hsince
    case inr hu => exact hb since (hu ▸ hsince)
  case landed =>
    intro u hu seq hseq
    cases List.mem_or_eq_of_mem_set hu
    case inl hu =>
      obtain ⟨k, hk⟩ := h.named u hu
      exact le_trans (h.landed u hu seq hseq) (hk ▸ ha.lastOf_le k)
    case inr hu => exact hu ▸ hl seq (hu ▸ hseq)
  case chunks =>
    intro m hmem token j hsub
    obtain hmem | hadd := hm m hmem
    · obtain ⟨u, hu, ht, hp, since, hs, hle⟩ := h.chunks m hmem token j hsub
      obtain ⟨u', hu', hext⟩ := mem_set_image hi he hu
      exact ⟨u', hu', hext.token.trans ht, hext.encoded_eq ▸ hp, since, hext.since since hs, hle⟩
    · exact ⟨v, List.mem_iff_getElem?.mpr ⟨i, by simp [hlt]⟩, hadd.chunk token j hsub⟩
  case values =>
    intro m hmem k hk
    obtain hmem | hadd := hm m hmem
    · obtain ⟨u, hu, hland⟩ := h.values m hmem k hk
      obtain ⟨u', hu', hext⟩ := mem_set_image hi he hu
      exact ⟨u', hu', hext.landed_message hh hland⟩
    · exact ⟨v, List.mem_iff_getElem?.mpr ⟨i, by simp [hlt]⟩, (hadd.value k hk).left⟩
  case staged =>
    intro u hu index hst hc hp
    cases List.mem_or_eq_of_mem_set hu
    case inl hu =>
      have hc := ha.canSucceed (h.named u hu) rfl id hc
      exact Writer.Extends.refl.kept hh (h.staged u hu index hst hc hp)
    case inr hu =>
      subst hu
      have hc := ha.canSucceed (h.named w hw) he.write hv hc
      exact hs index hst hc (he.prompt hp)
  case collects => exact fun collector hcol => (h.collects collector hcol).evolves evolves

end Set

theorem Sound.tick (h : Sound c s) (n : ℕ) : Sound c { s with clock := s.clock + n } where
  tokens   := h.tokens
  named    := h.named
  fresh    := h.fresh
  begun    := fun w hw since hs => le_trans (h.begun w hw since hs) (Nat.le_add_right ..)
  landed   := h.landed
  chunks   := h.chunks
  values   := h.values
  staged   := by
    intro w hw index hs hc hp
    exact h.staged w hw index hs hc fun since hsince => lt_of_le_of_lt (Nat.le_add_right ..) (hp since hsince)
  collects := by
    intro collector hcol
    refine (h.collects collector hcol).evolves ⟨Nat.le_add_right .., le_rfl, ?_, fun m hm _ _ => .inl hm⟩
    exact fun w hw _ => ⟨w, hw, rfl, fun _ hs => hs, id⟩

theorem Sound.open_ (h : Sound c s) {write : Write Key Owner} (hn : ∃ k, write.subject = .name k) :
    Sound c (s.open_ c write) := by
  have cases {u : Writer Key Owner} (hu : u ∈ (s.open_ c write).writers) : u ∈ s.writers ∨
      u = ⟨write, ⟨c.owner write.subject, write.base, s.writers.length⟩, none, none, .staging 0⟩ :=
    (List.mem_append.mp hu).imp_right List.mem_singleton.mp
  constructor
  case tokens =>
    intro j u hj
    simp only [State.open_] at hj
    by_cases hlt : j < s.writers.length
    case pos => exact h.tokens j u (List.getElem?_append_left hlt ▸ hj)
    case neg =>
      rw [List.getElem?_append_right (not_lt.mp hlt), List.getElem?_singleton] at hj
      split_ifs at hj with hz
      obtain rfl := Option.some.inj hj
      rw [show j = s.writers.length by omega]
  case named =>
    intro u hu
    obtain hu | rfl := cases hu
    · exact h.named u hu
    · exact hn
  case fresh =>
    intro u hu hst
    obtain hu | rfl := cases hu
    · exact h.fresh u hu hst
    · rfl
  case begun =>
    intro u hu since hsince
    obtain hu | rfl := cases hu
    · exact h.begun u hu since hsince
    · cases hsince
  case landed =>
    intro u hu seq hseq
    obtain hu | rfl := cases hu
    · exact h.landed u hu seq hseq
    · cases hseq
  case chunks =>
    intro m hm token i hsub
    obtain ⟨u, hu, hchunk⟩ := h.chunks m hm token i hsub
    exact ⟨u, List.mem_append_left _ hu, hchunk⟩
  case values =>
    intro m hm k hk
    obtain ⟨u, hu, hl⟩ := h.values m hm k hk
    exact ⟨u, List.mem_append_left _ hu, hl⟩
  case staged =>
    intro u hu index hst hc hp
    obtain hu | rfl := cases hu
    · exact h.staged u hu index hst hc hp
    · cases hst
      exact fun i hi => absurd hi (Nat.not_lt_zero i)
  case collects =>
    intro collector hcol
    refine (h.collects collector hcol).evolves ⟨le_rfl, ?_, fun u hu hlt => ?_, fun m hm _ _ => .inl hm⟩
    · simp [State.open_]
    · obtain hu | rfl := cases hu
      · exact ⟨u, hu, rfl, fun _ hs => hs, id⟩
      · exact absurd hlt (lt_irrefl _)

-- A writer that goes on without a message.
theorem Sound.setStage (h : Sound c s) {i : ℕ} {w : Writer Key Owner} {stage : Stage} (hi : s.writers[i]? = some w)
    (hs : ∀ index, stage ≠ .staging index) (hr : stage = .refused → w.Staging) :
    Sound c (s.setStage i w stage) := by
  have hw : w ∈ s.writers := List.mem_iff_getElem?.mpr ⟨i, hi⟩
  refine h.set hi ⟨rfl, rfl, fun _ h => h, fun _ h => ⟨h, rfl⟩⟩ .refl (fun _ h => h) ?_ ?_ ?_ ?_ (fun _ hm => .inl hm) ?_
  · rintro ⟨index, hst⟩
    exact absurd hst (hs index)
  · rintro (⟨index, hst⟩ | hst)
    · exact absurd hst (hs index)
    · exact h.fresh w hw (.inl (hr hst))
  · exact h.begun w hw
  · exact h.landed w hw
  · exact fun index hst => absurd hst (hs index)

theorem createChunk_cases (token : Token Owner) (index : ℕ) (piece : Bytes) :
    (s.createChunk c token index piece).log = s.log ∧ s.log.Has (.chunk token index) ∨
    (s.createChunk c token index piece).log = s.log.append c.retained (.chunk token index) piece s.clock := by
  simp only [State.createChunk, SubjectLog.publish]
  split_ifs with hz
  case pos => exact .inr rfl
  case neg =>
    obtain ⟨m, hm, hx, _⟩ := SubjectLog.lastOf_pos (Nat.pos_of_ne_zero hz)
    exact .inl ⟨rfl, m, hm, hx⟩

theorem createChunk_has {token : Token Owner} {index : ℕ} {piece : Bytes} {x : Subject Key Owner}
    (h : s.log.Has x ∨ x = .chunk token index) : (s.createChunk c token index piece).log.Has x := by
  obtain ⟨hl, hh⟩ | hl := createChunk_cases (c := c) (s := s) token index piece
  · rw [hl]
    exact h.elim id fun hx => hx ▸ hh
  · rw [hl]
    obtain h | rfl := h
    · exact h.append c.retains
    · exact ⟨_, SubjectLog.new_mem_append c.retains, rfl⟩

theorem Sound.stageChunk (h : Sound c s) {i index : ℕ} {w : Writer Key Owner} {piece : Bytes}
    (hi : s.writers[i]? = some w) (hst : w.stage = .staging index) (hp : (w.encoded c).pieces[index]? = some piece) :
    Sound c ((s.createChunk c w.token index piece).setWriter i
      { w with since := w.since.or (some s.clock), stage := .staging (index + 1) }) := by
  have hw : w ∈ s.writers := List.mem_iff_getElem?.mpr ⟨i, hi⟩
  have hnone := h.fresh w hw (.inl ⟨index, hst⟩)
  have begun : ∃ since, w.since.or (some s.clock) = some since ∧ since ≤ s.clock := by
    cases hs : w.since
    case none       => exact ⟨s.clock, rfl, le_rfl⟩
    case some since => exact ⟨since, rfl, h.begun w hw since hs⟩
  have ext : w.Extends { w with since := w.since.or (some s.clock), stage := .staging (index + 1) } :=
    ⟨rfl, rfl, fun since hs => by simp [hs], fun seq hs => absurd (hnone.symm.trans hs) (by simp)⟩
  have heads : Advances s.log (s.createChunk c w.token index piece).log := by
    obtain ⟨hl, _⟩ | hl := createChunk_cases (c := c) (s := s) w.token index piece
    · exact hl ▸ .refl
    · rw [hl]
      exact ⟨Nat.le_succ _, fun k => .inl (SubjectLog.lastOf_append_of_ne (by simp))⟩
  refine h.set hi ext heads (fun x hx => createChunk_has (.inl hx)) (fun _ => ⟨index, hst⟩) (fun _ => hnone) ?_ ?_ ?_ ?_
  · intro since hs
    obtain ⟨since', hs', hle⟩ := begun
    exact Option.some.inj (hs'.symm.trans hs) ▸ hle
  · exact fun seq hs => absurd (hnone.symm.trans hs) (by simp)
  · intro m hm
    obtain ⟨hl, _⟩ | hl := createChunk_cases (c := c) (s := s) w.token index piece
    · exact .inl (hl ▸ hm)
    · rw [hl] at hm
      refine (SubjectLog.mem_of_mem_append hm).imp_right fun hm => ?_
      subst hm
      refine ⟨fun token j hj => ?_, fun k hk => by cases hk⟩
      obtain ⟨rfl, rfl⟩ := Subject.chunk.inj hj
      exact ⟨rfl, ext.encoded_eq (c := c) ▸ hp, begun⟩
  · intro index' hst' hc hprompt
    obtain rfl := Stage.staging.inj hst'
    intro j hj hlen
    obtain hj | rfl := Nat.lt_succ_iff_lt_or_eq.mp hj
    · exact createChunk_has (.inl (h.staged w hw index hst hc hprompt j hj (ext.encoded_eq (c := c) ▸ hlen)))
    · exact createChunk_has (.inr rfl)

theorem Sound.stage (h : Sound c s) (i : ℕ) : Sound c (s.stage c i) := by
  unfold State.stage
  split
  case h_1      => exact h
  case h_2 w hi =>
    split
    case h_2           => exact h
    case h_1 index hst =>
      split
      case h_1          => exact h
      case h_2 piece hp => exact h.stageChunk hi hst hp

theorem Sound.publish (h : Sound c s) {i index : ℕ} {w : Writer Key Owner} (hi : s.writers[i]? = some w)
    (hst : w.stage = .staging index) (hlen : (w.encoded c).pieces.length ≤ index) (hp : w.Prompt c s.clock) :
    Sound c (s.publish c i w) := by
  have hw : w ∈ s.writers := List.mem_iff_getElem?.mpr ⟨i, hi⟩
  have hnone := h.fresh w hw (.inl ⟨index, hst⟩)
  unfold State.publish
  split
  case h_1          => exact h.setStage hi (fun _ hs => by cases hs) fun _ => ⟨index, hst⟩
  case h_2 log hlog =>
    have heads := Advances.publish c.retains hlog
    unfold SubjectLog.publish at hlog
    split_ifs at hlog with hbase
    have hlog := Option.some.inj hlog
    have hc : s.CanSucceed w := ⟨⟨index, hst⟩, .inl hbase⟩
    have has : ∀ x, s.log.Has x → log.Has x := fun x hx => hlog ▸ hx.append c.retains
    have ext : w.Extends { w with landed := some log.last, stage := .committed } :=
      ⟨rfl, rfl, fun _ hs => hs, fun seq hs => absurd (hnone.symm.trans hs) (by simp)⟩
    have last : log.last = s.log.last + 1 := hlog ▸ rfl
    refine h.set hi ext heads has ?_ ?_ (h.begun w hw) ?_ ?_ (fun _ hs => by cases hs)
    · rintro ⟨_, hs⟩
      cases hs
    · rintro (⟨_, hs⟩ | hs) <;> cases hs
    · intro seq hs
      obtain rfl := Option.some.inj hs
      subst hlog
      rw [SubjectLog.lastOf_append_self c.retains]
      exact le_rfl
    · intro m hm
      rw [← hlog] at hm
      refine (SubjectLog.mem_of_mem_append hm).imp_right fun hm => ⟨?_, ?_⟩
      · intro token j hj
        obtain ⟨k, hk⟩ := h.named w hw
        cases hk.symm.trans ((congrArg SubjectLog.Message.subject hm).symm.trans hj)
      · intro k hk
        subst hm
        refine ⟨⟨rfl, congrArg some last, ?_, hp, ?_⟩, hc, hp, le_rfl⟩
        · rw [ext.encoded_eq]
        · have hkept : Kept c s.log w (w.encoded c).pieces.length :=
            fun j hj hl => h.staged w hw index hst hc hp j (lt_of_lt_of_le hj hlen) hl
          rw [ext.encoded_eq]
          exact ext.kept has hkept

theorem Sound.commit (h : Sound c s) {i : ℕ} (hp : ∀ w, s.writers[i]? = some w → w.Staging → w.Prompt c s.clock) :
    Sound c (s.commit c i) := by
  unfold State.commit
  split
  case h_1      => exact h
  case h_2 w hi =>
    split
    case h_2           => exact h
    case h_1 index hst =>
      split_ifs with hlen
      · exact h.publish hi hst hlen (hp w hi ⟨index, hst⟩)
      · exact h

end Chunks
