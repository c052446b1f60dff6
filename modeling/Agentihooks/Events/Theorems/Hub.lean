import Mathlib.Data.Finset.Card
import Agentihooks.Events.Hub
import Agentihooks.Events.Theorems.Patch

-- A client that folds what it receives holds the values of the channel, for the names it was given.

namespace Events

variable {channel : Channel} {retained seq k : ℕ} {held resources : Resources} {name n : String} {v w : JsonValue}
variable {value : Value} {shared : Bool} {e : Event} {events : List Event}

-- The events of a channel are numbered from one.
structure Channel.Numbered (channel : Channel) : Prop where
  seq    : channel.seq = channel.published.length
  events : ∀ (i : ℕ) e, channel.published[i]? = some e → e.seq = i + 1

-- A value of a resource after some events.
def catchUp (name : String) (v : JsonValue) (events : List Event) : JsonValue :=
  events.foldl (fun v e => if e.name = name then apply v e.patch else v) v

-- What is held at a seq gives the resources of the channel once the events since are folded.
structure Tracks (channel : Channel) (seq : ℕ) (held : Resources) : Prop where
  seq_le : seq ≤ channel.published.length
  values : ∀ n v, held.lookup n = some v →
    ∃ w, channel.resources.lookup n = some w ∧ same (catchUp n v (channel.published.drop seq)) w

section Channel

theorem same_catchUp {x y : JsonValue} (h : same x y) : same (catchUp n x events) (catchUp n y events) := by
  induction events generalizing x y
  case nil => exact h
  case cons e events hi =>
    rw [catchUp, catchUp, List.foldl_cons, List.foldl_cons]
    refine hi ?_
    split
    case isTrue  => exact same_apply h e.patch
    case isFalse => exact h

-- What a publication does: it changes nothing, takes a first value, or puts a value that its event gives.
theorem Channel.publish_cases (channel : Channel) (name : String) (value : Value) (shared : Bool) :
    channel.publish name value.json shared = channel ∨
      (channel.resources.lookup name = none ∧ channel.publish name value.json shared =
        { channel with resources := channel.resources.insert name value.json }) ∨
      ∃ old e new, channel.resources.lookup name = some old ∧ e.seq = channel.seq + 1 ∧ e.name = name ∧
        same (apply old e.patch) new ∧ channel.publish name value.json shared =
          { channel with
            seq       := channel.seq + 1
            published := channel.published ++ [e]
            resources := channel.resources.insert name new } := by
  rw [Channel.publish]
  cases hl : channel.resources.lookup name
  case none => exact .inr (.inl ⟨rfl, rfl⟩)
  case some old =>
    dsimp only
    split
    case isFalse => exact .inl rfl
    case isTrue =>
      cases hd : diff old value.json
      case none => exact .inl rfl
      case some patch =>
        refine .inr (.inr ⟨old, _, _, rfl, rfl, rfl, ?_, rfl⟩)
        cases shared
        case false => exact same_refl _
        case true  => exact same_apply_diff value.distinct hd

theorem Channel.Numbered.publish (h : channel.Numbered) : (channel.publish name value.json shared).Numbered := by
  rcases channel.publish_cases name value shared with he | ⟨_, he⟩ | ⟨old, e, new, _, hs, _, _, he⟩ <;> rw [he]
  · exact h
  · exact ⟨h.seq, h.events⟩
  · refine ⟨by simp [h.seq], fun i e' hi => ?_⟩
    rw [List.getElem?_append] at hi
    split at hi
    case isTrue => exact h.events i e' hi
    case isFalse hl =>
      have hz : i - channel.published.length = 0 := by
        by_contra hne
        rw [List.getElem?_eq_none (by simp; omega)] at hi
        cases hi
      rw [hz] at hi
      cases hi
      rw [hs, h.seq]
      omega

theorem Tracks.publish (h : Tracks channel seq held) : Tracks (channel.publish name value.json shared) seq held := by
  rcases channel.publish_cases name value shared with he | ⟨hn, he⟩ | ⟨old, e, new, ho, _, hen, hs, he⟩ <;> rw [he]
  · exact h
  · refine ⟨h.seq_le, fun n v hv => ?_⟩
    obtain ⟨w, hw, hsame⟩ := h.values n v hv
    have hne : n ≠ name := by
      rintro rfl
      cases hn.symm.trans hw
    exact ⟨w, by rw [Finmap.lookup_insert_of_ne _ hne]; exact hw, hsame⟩
  · refine ⟨by simpa using Nat.le_succ_of_le h.seq_le, fun n v hv => ?_⟩
    obtain ⟨w, hw, hsame⟩ := h.values n v hv
    dsimp only
    rw [List.drop_append_of_le_length h.seq_le, catchUp, List.foldl_append]
    by_cases hne : n = name
    case pos =>
      subst hne
      cases ho.symm.trans hw
      refine ⟨new, by rw [Finmap.lookup_insert], ?_⟩
      rw [List.foldl_cons, if_pos hen]
      exact same_trans (same_apply hsame e.patch) hs
    case neg =>
      refine ⟨w, by rw [Finmap.lookup_insert_of_ne _ hne]; exact hw, ?_⟩
      rw [List.foldl_cons, if_neg (by rw [hen]; exact Ne.symm hne)]
      exact hsame

theorem Tracks.union (h : Tracks channel seq held) :
    Tracks { channel with resources := channel.resources ∪ resources } seq held := by
  refine ⟨h.seq_le, fun n v hv => ?_⟩
  obtain ⟨w, hw, hsame⟩ := h.values n v hv
  exact ⟨w, by rw [Finmap.lookup_union, hw]; rfl, hsame⟩

theorem Tracks.snapshot : Tracks channel channel.published.length channel.resources := by
  refine ⟨le_rfl, fun n v hv => ⟨v, hv, ?_⟩⟩
  rw [List.drop_length]
  exact same_refl v

-- The next event takes what is held one step further.
theorem Tracks.receive (h : Tracks channel seq held) (he : channel.published[seq]? = some e) :
    Tracks channel (seq + 1) (receive held e) := by
  obtain ⟨hl, rfl⟩ := List.getElem?_eq_some_iff.mp he
  refine ⟨hl, fun n v hv => ?_⟩
  have hdrop : channel.published.drop seq = channel.published[seq] :: channel.published.drop (seq + 1) :=
    List.drop_eq_getElem_cons hl
  have hh : ∃ v', held.lookup n = some v' ∧
      v = if channel.published[seq].name = n then apply v' channel.published[seq].patch else v' := by
    rw [Events.receive] at hv
    split at hv
    case h_1 v' hv' =>
      by_cases hn : n = channel.published[seq].name
      case pos =>
        subst hn
        rw [Finmap.lookup_insert] at hv
        cases hv
        exact ⟨v', hv', by rw [if_pos rfl]⟩
      case neg =>
        rw [Finmap.lookup_insert_of_ne _ hn] at hv
        exact ⟨v, hv, by rw [if_neg (Ne.symm hn)]⟩
    case h_2 hnone =>
      refine ⟨v, hv, (if_neg ?_).symm⟩
      rintro rfl
      cases hnone.symm.trans hv
  obtain ⟨v', hv', rfl⟩ := hh
  obtain ⟨w, hw, hsame⟩ := h.values n v' hv'
  rw [hdrop] at hsame
  exact ⟨w, hw, hsame⟩

-- Of numbered events those after a seq are the last ones.
theorem filter_drop {es : List Event} {d : ℕ} (hn : ∀ (i : ℕ) e, es[i]? = some e → e.seq = d + i + 1) (hd : d ≤ seq) :
    es.filter (seq < ·.seq) = es.drop (seq - d) := by
  induction es generalizing d
  case nil => simp
  case cons e es hi =>
    have he : e.seq = d + 1 := hn 0 e rfl
    by_cases hds : d = seq
    case pos =>
      rw [Nat.sub_eq_zero_of_le hds.ge, List.drop_zero, List.filter_eq_self]
      intro e' hm
      obtain ⟨i, hi⟩ := List.mem_iff_getElem?.mp hm
      have := hn i e' hi
      rw [decide_eq_true_iff]
      omega
    case neg =>
      have hr : ∀ (i : ℕ) e', es[i]? = some e' → e'.seq = d + 1 + i + 1 := by
        intro i e' hi'
        have := hn (i + 1) e' hi'
        omega
      have hs : seq - d = (seq - (d + 1)) + 1 := by omega
      rw [List.filter_cons_of_neg (by simp; omega), hi hr (by omega), hs, List.drop_succ_cons]

variable (h : channel.Numbered)

include h

theorem Channel.Numbered.filter_published : channel.published.filter (seq < ·.seq) = channel.published.drop seq := by
  rw [filter_drop (d := 0) (fun i e hi => by rw [h.events i e hi]; omega) (Nat.zero_le _), Nat.sub_zero]

theorem Channel.Numbered.getElem?_log {i : ℕ} (he : (channel.log retained)[i]? = some e) :
    e.seq = channel.published.length - retained + i + 1 := by
  rw [Channel.log, List.getElem?_drop] at he
  exact h.events _ e he

-- What the log still has after a seq, where its first event is the next one or an earlier one.
theorem Channel.Numbered.after_eq (hd : channel.published.length - retained ≤ seq) :
    channel.after retained seq = channel.published.drop seq := by
  rw [Channel.after, filter_drop (fun i e hi => h.getElem?_log hi) hd, Channel.log, List.drop_drop]
  congr 1
  omega

-- Where the log has not lost the next event after a seq, it has them all; an empty log has none.
theorem Channel.Numbered.after_of_head (hl : ¬(channel.log retained).head?.any (seq + 1 < ·.seq)) :
    channel.log retained = [] ∨ channel.after retained seq = channel.published.drop seq := by
  cases hlog : channel.log retained
  case nil => exact .inl rfl
  case cons e es =>
    have he := h.getElem?_log (i := 0) (by rw [hlog]; rfl)
    simp only [hlog, List.head?_cons, Option.any_some, decide_eq_true_iff, not_lt] at hl
    exact .inr (h.after_eq (by omega))

end Channel

end Events

-- What holds of a channel and its clients in every state of a run.

namespace Events

variable {κ : Type} [DecidableEq κ] {s : State κ} {c c' : κ} {client : Client} {clients : κ → Client}
variable {channel channel' : Channel} {retained seq : ℕ} {resources : Resources} {name : String} {value : Value}
variable {shared resume : Bool} {cursor : Option ℕ} {id : Option (ℕ × ℕ)} {pending : List Frame}

@[simp]
theorem State.put_self : (s.put c client).clients c = client :=
  Function.update_self ..

-- A later state of one channel.
structure Grows (channel channel' : Channel) : Prop where
  epoch     : channel'.epoch = channel.epoch
  published : channel.published <+: channel'.published
  numbered  : channel.Numbered → channel'.Numbered
  tracks    : ∀ {seq held}, Tracks channel seq held → Tracks channel' seq held

theorem Grows.publish : Grows channel (channel.publish name value.json shared) where
  epoch := by
    rcases channel.publish_cases name value shared with he | ⟨_, he⟩ | ⟨_, _, _, _, _, _, _, he⟩ <;> rw [he]
  published := by
    rcases channel.publish_cases name value shared with he | ⟨_, he⟩ | ⟨_, e, _, _, _, _, _, he⟩ <;> rw [he]
    exact List.prefix_append _ [e]
  numbered h := h.publish
  tracks h := h.publish

theorem Grows.union : Grows channel { channel with resources := channel.resources ∪ resources } where
  epoch      := rfl
  published  := List.prefix_rfl
  numbered h := ⟨h.seq, h.events⟩
  tracks h   := h.union

theorem Grows.subscribers {n : ℕ} : Grows channel { channel with subscribers := n } where
  epoch      := rfl
  published  := List.prefix_rfl
  numbered h := ⟨h.seq, h.events⟩
  tracks h   := ⟨h.seq_le, h.values⟩

theorem Grows.refl : Grows channel channel where
  epoch      := rfl
  published  := List.prefix_rfl
  numbered h := h
  tracks h   := h

-- What a connection has to send: a snapshot, or the next events after the last one that the client received.
inductive Sends (channel : Channel) (id : Option (ℕ × ℕ)) (seq : ℕ) : List Frame → Prop
  | snapshot (resources : Resources) (h : Tracks channel seq resources) : Sends channel id seq [.snapshot seq resources]
  | events (events : List Event) (hid : id = some (channel.epoch, seq)) (h : events <+: channel.published.drop seq) :
    Sends channel id seq (events.map .event)

theorem Sends.grows (h : Sends channel id seq pending) (hg : Grows channel channel') : Sends channel' id seq pending := by
  cases h
  case snapshot resources h     => exact .snapshot resources (hg.tracks h)
  case events events hid hp     => exact .events events (hg.epoch ▸ hid) (hp.trans (hg.published.drop seq))

theorem Sends.next {e : Event} {rest : List Frame} (h : Sends channel id seq (.event e :: rest)) :
    id = some (channel.epoch, seq) ∧ channel.published[seq]? = some e ∧
      ∃ events, rest = events.map .event ∧ events <+: channel.published.drop (seq + 1) := by
  generalize hp : Frame.event e :: rest = pending at h
  cases h
  case snapshot => cases hp
  case events events hid hpre =>
    cases events <;> cases hp
    case cons events =>
      obtain ⟨tail, ht⟩ := hpre
      refine ⟨hid, ?_, events, rfl, ?_⟩
      case refine_1 =>
        rw [← Nat.add_zero seq, ← List.getElem?_drop, ← ht]
        rfl
      case refine_2 =>
        rw [← List.drop_drop, ← ht]
        exact List.prefix_append events tail

theorem Sends.snapshot_eq {seq' : ℕ} {rest : List Frame} (h : Sends channel id seq (.snapshot seq' resources :: rest)) :
    seq' = seq ∧ rest = [] ∧ Tracks channel seq resources := by
  generalize hp : Frame.snapshot seq' resources :: rest = pending at h
  cases h
  case snapshot ht =>
    cases hp
    exact ⟨rfl, rfl, ht⟩
  case events events _ _ => cases events <;> cases hp

theorem Sends.id_eq (h : Sends channel id seq []) : id = some (channel.epoch, seq) := by
  generalize hp : ([] : List Frame) = pending at h
  cases h
  case snapshot       => cases hp
  case events hid _ => exact hid

-- What a connection may be at, next to the channel.
def Fits (channel : Channel) (client : Client) : Prop :=
  match client.phase with
  | .away                              => True
  | .loading cursor | .reading cursor => ∀ seq, cursor = some seq → client.cursor = some (channel.epoch, seq)
  | .serving seq pending               => Sends channel client.cursor seq pending

theorem Fits.grows (h : Fits channel client) (hg : Grows channel channel') : Fits channel' client := by
  obtain ⟨phase, id, held⟩ := client
  cases phase
  case away    => trivial
  case loading => exact fun seq hs => hg.epoch ▸ h seq hs
  case reading => exact fun seq hs => hg.epoch ▸ h seq hs
  case serving => exact Sends.grows h hg

-- What a client holds is what the channel had at the last id it received.
def Holds (channel : Channel) (client : Client) : Prop :=
  ∀ seq, client.cursor = some (channel.epoch, seq) → Tracks channel seq client.held

theorem Holds.grows (h : Holds channel client) (hg : Grows channel channel') : Holds channel' client :=
  fun seq hs => hg.tracks (h seq (hg.epoch ▸ hs))

section Count

-- The subscribers are the clients that are not away.
def Count (n : ℕ) (clients : κ → Client) : Prop :=
  ∃ cs : Finset κ, (∀ c, c ∈ cs ↔ (clients c).phase ≠ .away) ∧ cs.card = n

theorem Count.keep {n : ℕ} (h : Count n clients) (hp : client.phase = .away ↔ (clients c).phase = .away) :
    Count n (Function.update clients c client) := by
  obtain ⟨cs, hm, hc⟩ := h
  refine ⟨cs, fun c' => ?_, hc⟩
  by_cases he : c' = c
  case pos =>
    subst he
    rw [hm, Function.update_self]
    exact (not_congr hp).symm
  case neg => rw [hm, Function.update_of_ne he]

theorem Count.join {n : ℕ} (h : Count n clients) (ha : (clients c).phase = .away) (hp : client.phase ≠ .away) :
    Count (n + 1) (Function.update clients c client) := by
  obtain ⟨cs, hm, hc⟩ := h
  have hn : c ∉ cs := fun hcs => (hm c).mp hcs ha
  refine ⟨insert c cs, fun c' => ?_, by rw [Finset.card_insert_of_notMem hn, hc]⟩
  rw [Finset.mem_insert]
  by_cases he : c' = c
  case pos =>
    subst he
    simp [hp]
  case neg => simp [he, hm]

theorem Count.leave {n : ℕ} (h : Count n clients) (ha : (clients c).phase ≠ .away) (hp : client.phase = .away) :
    Count (n - 1) (Function.update clients c client) := by
  obtain ⟨cs, hm, hc⟩ := h
  refine ⟨cs.erase c, fun c' => ?_, by rw [Finset.card_erase_of_mem ((hm c).mpr ha), hc]⟩
  rw [Finset.mem_erase]
  by_cases he : c' = c
  case pos =>
    subst he
    simp [hp]
  case neg => simp [he, hm]

omit [DecidableEq κ] in
theorem Count.away (h : Count 0 clients) (c : κ) : (clients c).phase = .away := by
  obtain ⟨cs, hm, hc⟩ := h
  by_contra hn
  have := (hm c).mpr hn
  rw [Finset.card_eq_zero.mp hc] at this
  simp at this

end Count

variable {d : κ}

-- The invariant, as far as the client `d` is concerned.
structure Inv (d : κ) (s : State κ) : Prop where
  epochs   : ∀ c epoch seq, (s.clients c).cursor = some (epoch, seq) → epoch < s.epochs
  numbered : ∀ channel, s.channel = some channel → channel.Numbered ∧ channel.epoch < s.epochs
  client   : ∀ channel, s.channel = some channel → Fits channel (s.clients d) ∧ Holds channel (s.clients d)
  count    : Count ((s.channel.map Channel.subscribers).getD 0) s.clients

-- A step of one client with the channel.
theorem Inv.put (h : Inv d s) (hch : s.channel = some channel) (hg : Grows channel channel')
    (hf : c = d → Fits channel' client ∧ Holds channel' client)
    (hid : ∀ epoch seq, client.cursor = some (epoch, seq) → epoch < s.epochs)
    (hc : Count channel'.subscribers (Function.update s.clients c client)) :
    Inv d { s.put c client with channel := some channel' } where
  epochs c' epoch seq hc' := by
    by_cases he : c' = c
    case pos =>
      subst he
      exact hid epoch seq (by simpa [State.put] using hc')
    case neg => exact h.epochs c' epoch seq (by simpa [State.put, he] using hc')
  numbered channel hc := by
    cases hc
    obtain ⟨hn, he⟩ := h.numbered _ hch
    exact ⟨hg.numbered hn, hg.epoch ▸ he⟩
  client channel hc := by
    cases hc
    by_cases he : c = d
    case pos =>
      subst he
      simpa [State.put] using hf rfl
    case neg =>
      obtain ⟨hf, hh⟩ := h.client _ hch
      simpa [State.put, Ne.symm he] using ⟨hf.grows hg, hh.grows hg⟩
  count := hc

-- A step of one client alone.
theorem Inv.put_client (h : Inv d s) (hch : s.channel = some channel)
    (hf : c = d → Fits channel client ∧ Holds channel client)
    (hid : ∀ epoch seq, client.cursor = some (epoch, seq) → epoch < s.epochs)
    (hp : client.phase = .away ↔ (s.clients c).phase = .away) : Inv d (s.put c client) := by
  have hc := h.count
  rw [hch, Option.map_some, Option.getD_some] at hc
  have hi := h.put hch Grows.refl hf hid (hc.keep hp)
  rwa [← hch] at hi

section Steps

variable (h : Inv d s)

include h

omit [DecidableEq κ] in
theorem Inv.count_some (hch : s.channel = some channel) : Count channel.subscribers s.clients := by
  have hc := h.count
  rwa [hch] at hc

theorem Inv.subscribe (hch : s.channel = some channel) (ha : (s.clients c).phase = .away)
    (hcur : ∀ seq, cursor = some seq → (s.clients c).cursor = some (channel.epoch, seq)) :
    Inv d (s.subscribe c channel cursor) := by
  rw [State.subscribe]
  refine h.put hch Grows.subscribers (fun he => ?_) (h.epochs c) ((h.count_some hch).join ha ?_)
  case refine_1 =>
    subst he
    refine ⟨?_, (h.client _ hch).right.grows Grows.subscribers⟩
    by_cases hk : channel.resources.keys = ∅
    case pos => simpa [Fits, hk] using hcur
    case neg => simpa [Fits, hk] using hcur
  case refine_2 =>
    dsimp only
    split <;> simp

theorem Inv.expire (ha : (s.clients c).phase = .away) : Inv d (s.expire c) where
  epochs c' epoch seq hc' := by
    by_cases he : c' = c
    case pos =>
      subst he
      simp [State.expire, State.put] at hc'
    case neg => exact h.epochs c' epoch seq (by simpa [State.expire, State.put, he] using hc')
  numbered := h.numbered
  client channel hch := by
    by_cases he : d = c
    case pos =>
      subst he
      simp [State.expire, State.put, Fits, Holds]
    case neg => simpa [State.expire, State.put, he] using h.client channel hch
  count := h.count.keep (by simp [ha])

omit [DecidableEq κ] in
-- A new channel, which no client knows.
theorem Inv.create (hch : s.channel = none) :
    Inv d { s with epochs := s.epochs + 1, channel := some ⟨s.epochs, 0, [], ∅, 0⟩ } where
  epochs c epoch seq hc := Nat.lt_succ_of_lt (h.epochs c epoch seq hc)
  numbered _ hc := by
    cases hc
    exact ⟨⟨rfl, by simp⟩, Nat.lt_succ_self _⟩
  client _ hc := by
    cases hc
    have ha := (show Count 0 s.clients by simpa [hch] using h.count).away d
    refine ⟨by rw [Fits, ha]; trivial, fun seq hs => ?_⟩
    exact absurd (h.epochs d _ seq hs) (lt_irrefl _)
  count := by simpa [hch] using h.count

theorem Inv.connect : Inv d (s.connect retained c resume) := by
  rw [State.connect]
  split
  case h_2 => exact h
  case h_1 ha =>
    split
    case isTrue =>
      split
      case h_2 => exact h.expire ha
      case h_1 epoch seq channel hcur hch =>
        split
        case isFalse => exact h.expire ha
        case isTrue hpos =>
          refine h.subscribe hch ha fun seq' hs => ?_
          cases hs
          rw [hcur, hpos.left]
    case isFalse =>
      split
      case h_1 channel hch => exact h.subscribe hch ha nofun
      case h_2 hch =>
        exact (h.create hch).subscribe rfl ha nofun

theorem Inv.close (hch : s.channel = some channel) (ha : (s.clients c).phase ≠ .away) : Inv d (s.close c channel) := by
  refine h.put hch Grows.subscribers (fun he => ?_) (h.epochs c) ((h.count_some hch).leave ha rfl)
  subst he
  exact ⟨trivial, (h.client _ hch).right.grows Grows.subscribers⟩

theorem Inv.load {values : Option Resources} : Inv d (s.load c values) := by
  rw [State.load]
  split
  case h_2 => exact h
  case h_1 cursor channel hp hch =>
    split
    case h_1 => exact h.close hch (by simp [hp])
    case h_2 values =>
      refine h.put hch Grows.union (fun he => ?_) (h.epochs c) ((h.count_some hch).keep (by simp [hp]))
      subst he
      obtain ⟨hf, hh⟩ := h.client _ hch
      rw [Fits, hp] at hf
      exact ⟨hf, hh.grows Grows.union⟩

theorem Inv.read (hk : State.Kept retained d s (.read c)) : Inv d (s.read retained c) := by
  rw [State.read]
  split
  case h_1 seq channel hp hch =>
    refine h.put_client hch (fun he => ?_) (h.epochs c) (by simp [hp])
    subst he
    obtain ⟨hf, hh⟩ := h.client _ hch
    rw [Fits, hp] at hf
    rw [(hk rfl seq channel hp hch).trans (h.numbered _ hch).left.filter_published]
    exact ⟨.events _ (hf seq rfl) List.prefix_rfl, hh⟩
  case h_2 channel hp hch =>
    refine h.put_client hch (fun he => ?_) (h.epochs c) (by simp [hp])
    subst he
    rw [(h.numbered _ hch).left.seq]
    exact ⟨.snapshot _ Tracks.snapshot, (h.client _ hch).right⟩
  case h_3 => exact h

theorem Inv.deliver : Inv d (s.deliver c) := by
  rw [State.deliver]
  split
  case h_1 seq' seq resources rest channel hp hch =>
    refine h.put_client hch (fun he => ?_) (fun epoch seq hs => ?_) (by simp [hp])
    case refine_1 =>
      subst he
      obtain ⟨hf, _⟩ := h.client _ hch
      rw [Fits, hp] at hf
      obtain ⟨rfl, rfl, ht⟩ := hf.snapshot_eq
      refine ⟨.events [] rfl List.nil_prefix, fun seq hs => ?_⟩
      cases hs
      exact ht
    case refine_2 =>
      cases hs
      exact (h.numbered _ hch).right
  case h_2 seq e rest channel hp hch =>
    refine h.put_client hch (fun he => ?_) (fun epoch seq hs => ?_) (by simp [hp])
    case refine_1 =>
      subst he
      obtain ⟨hf, hh⟩ := h.client _ hch
      rw [Fits, hp] at hf
      obtain ⟨hid, he, events, rfl, hnext⟩ := hf.next
      have hs := (h.numbered _ hch).left.events seq e he
      refine ⟨.events events (by rw [hs]) (hs ▸ hnext), fun seq' hs' => ?_⟩
      cases hs'
      rw [hs]
      exact (hh seq hid).receive he
    case refine_2 =>
      cases hs
      exact (h.numbered _ hch).right
  case h_3 => exact h

theorem Inv.wait : Inv d (s.wait retained c) := by
  rw [State.wait]
  split
  case h_2 => exact h
  case h_1 seq channel hp hch =>
    split
    case isTrue => exact h
    case isFalse =>
      split
      case isTrue =>
        refine h.put_client hch (fun he => ?_) (h.epochs c) (by simp [hp])
        subst he
        exact ⟨nofun, (h.client _ hch).right⟩
      case isFalse hlog =>
        refine h.put_client hch (fun he => ?_) (h.epochs c) (by simp [hp])
        subst he
        obtain ⟨hf, hh⟩ := h.client _ hch
        rw [Fits, hp] at hf
        refine ⟨?_, hh⟩
        rcases (h.numbered _ hch).left.after_of_head hlog with he | he
        · rw [Channel.after, he]
          exact .events [] hf.id_eq List.nil_prefix
        · rw [he]
          exact .events _ hf.id_eq List.prefix_rfl

theorem Inv.hangUp : Inv d (s.hangUp c) := by
  rw [State.hangUp]
  split
  case h_1 hp hch => exact h.close hch (by simp [hp])
  case h_2        => exact h

omit [DecidableEq κ] in
theorem Inv.publish : Inv d (s.publish name value shared) where
  epochs := h.epochs
  numbered channel' hc := by
    obtain ⟨channel, hch, rfl⟩ := Option.map_eq_some_iff.mp hc
    obtain ⟨hn, he⟩ := h.numbered _ hch
    have hg : Grows channel (channel.publish name value.json shared) := .publish
    exact ⟨hn.publish, hg.epoch ▸ he⟩
  client channel' hc := by
    obtain ⟨channel, hch, rfl⟩ := Option.map_eq_some_iff.mp hc
    obtain ⟨hf, hh⟩ := h.client _ hch
    exact ⟨hf.grows Grows.publish, hh.grows Grows.publish⟩
  count := by
    have hc := h.count
    rw [State.publish]
    cases hch : s.channel
    case none => simpa [hch] using hc
    case some channel =>
      have hs : (channel.publish name value.json shared).subscribers = channel.subscribers := by
        rcases channel.publish_cases name value shared with he | ⟨_, he⟩ | ⟨_, _, _, _, _, _, _, he⟩ <;> rw [he]
      simpa [hch, hs] using hc

omit [DecidableEq κ] in
theorem Inv.evict : Inv d s.evict where
  epochs := h.epochs
  numbered channel hc := h.numbered channel (Option.filter_eq_some_iff.mp hc).left
  client channel hc   := h.client channel (Option.filter_eq_some_iff.mp hc).left
  count := by
    have hc := h.count
    rw [State.evict]
    cases hch : s.channel
    case none => simpa [hch] using hc
    case some channel =>
      rw [hch, Option.map_some, Option.getD_some] at hc
      by_cases hz : 0 < channel.subscribers
      case pos => simpa [Option.filter, hz] using hc
      case neg =>
        rw [Nat.eq_zero_of_not_pos hz] at hc
        simpa [Option.filter, hz] using hc

theorem Inv.step {a : Action κ} (hk : State.Kept retained d s a) : Inv d (s.step retained a) := by
  cases a
  case connect => exact h.connect
  case load    => exact h.load
  case read    => exact h.read hk
  case deliver => exact h.deliver
  case wait    => exact h.wait
  case hangUp  => exact h.hangUp
  case publish => exact h.publish
  case evict   => exact h.evict

end Steps

-- An event that is about to reach a client is the one after the last id that it received.
def InOrder (s : State κ) (c : κ) : Prop :=
  ∀ channel seq e rest, s.channel = some channel → (s.clients c).phase = .serving seq (.event e :: rest) →
    (s.clients c).cursor = some (channel.epoch, seq) ∧ e.seq = seq + 1 ∧ channel.published[seq]? = some e

omit [DecidableEq κ] in
theorem Inv.inOrder (h : Inv c s) : InOrder s c := by
  intro channel seq e rest hch hp
  obtain ⟨hf, _⟩ := h.client _ hch
  rw [Fits, hp] at hf
  obtain ⟨hid, he, _⟩ := hf.next
  exact ⟨hid, (h.numbered _ hch).left.events seq e he, he⟩

def number (n : ℤ) : Value where
  json     := .scalar (.int n)
  distinct := rfl

end Events
