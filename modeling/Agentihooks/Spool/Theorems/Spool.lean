import Agentihooks.Spool.Theorems.Calls

namespace Spool

variable {config : Config} {s s' : State} {e : Event} {es : List Event} {name : Name} {names : List Name} {entry : Entry}
variable {file : File} {f : Flush} {lost : Bool} {id : ℕ} {stage : Stage} {choice : Choice}

-- The keys that are acknowledged are not remembered yet.
def Stage.Meets (s : State) : Stage → Prop
  | .settleWrite f false _ => ¬ s.known.recalls f.name.key
  | _                      => True

instance : Decidable (stage.Meets s) := by
  unfold Stage.Meets
  split <;> infer_instance

-- What is corrupted is a batch file, which does not read any more and has not grown.
def Meets (s : State) : Event → Prop
  | .turn id _         => ∀ stage ∈ s.calls id, stage.Meets s
  | .corrupt name file => Spoils s name file
  | .corruptAck _      => False
  | _                  => True

instance : Decidable (Meets s e) := by
  unfold Meets
  cases e <;> infer_instance

section Steps

theorem Sound.change (h : Sound config s) (hd : Data config s') (hc : s'.calls = s.calls) (hsl : s'.spoolLock = s.spoolLock)
    (hfl : s'.flushLock = s.flushLock) (hs : Steady s s') (ho : Onward s s') : Sound config s' where
  data  := hd
  spool := by rw [hc, hsl]; exact h.spool
  flush := by rw [hc, hfl]; exact h.flush
  calls := by
    rw [hc]
    exact fun id stage hstage => (h.calls id stage hstage).frame (fun _ => hs) fun _ => ho

theorem Data.left_unsettled (h : Data config s) : Left s s.unsettled where
  sorted := by
    have hpairs : s.unsettled.Pairwise fun a b => a.sequence ≤ b.sequence ∧ a ≠ b := sorted_pending.and nodup_pending
    refine hpairs.imp_of_mem fun {a b} ha hb hab => lt_of_le_of_ne hab.left fun heq => hab.right ?_
    obtain ⟨x, hx, rfl⟩ := h.named a (State.mem_unsettled.mp ha).left
    obtain ⟨y, hy, rfl⟩ := h.named b (State.mem_unsettled.mp hb).left
    rw [h.eq_of_sequence hx hy heq]
  mem    := fun _ hn => hn
  rest   := fun _ hn => .inl hn

theorem Data.fresh (h : Data config s) {identity : String} {records : List String} {now : ℤ}
    (hrecalls : ¬ s.known.recalls (config.key identity))
    (hbuffered : buffered s.batches s.unsettled (config.key identity) = none)
    (hroom : Spool.bytes s.batches s.unsettled + config.length ⟨s.known.next s.unsettled, identity, now, records⟩ ≤ config.maxBytes) :
    Fresh config s ⟨s.known.next s.unsettled, identity, now, records⟩ where
  above    := by
    intro a ha
    obtain ⟨hup, hm⟩ | ⟨hle, -⟩ := h.accounted a ha
    · exact lt_next (State.mem_unsettled.mpr ⟨hm, hup⟩)
    · exact hle.trans_lt settled_lt_next
  settled  := settled_lt_next
  recalls  := hrecalls
  buffered := hbuffered
  room     := hroom

theorem Sound.following {uploaded missed : List ℕ} (h : Sound config s) (hf : s.flushLock = some id) (hl : Left s names) :
    Sound config (s.following id uploaded missed names).1 := by
  cases names with
  | nil            => exact h.leave
  | cons name left => exact h.goTo (fun hs => hs.elim) (fun _ => hf) hl

-- The lock of the spool is free again.
theorem Sound.unlocked {uploaded missed : List ℕ} (h : Sound config s) (hs : s.spoolLock = some id)
    (hf : s.flushLock = some id) (hl : Left s names) : Sound config (s.unlock.following id uploaded missed names).1 := by
  have hmoves {s₁ : State} (hc : ∀ other ≠ id, s₁.calls other = s.calls other)
      (hfl : ∀ other ≠ id, s.flushLock = some other → s₁.flushLock = some other) : Moves id s s₁ :=
    ⟨hc, fun other ho hlock => absurd (Option.some.inj (hlock.symm.trans hs)) ho, hfl⟩
  cases names with
  | nil            =>
    have halike : Alike s (s.unlock.leave id) := ⟨rfl, rfl, rfl, rfl, rfl, rfl⟩
    refine h.advance (h.data.alike halike) (hmoves (fun _ ho => Function.update_of_ne ho _ _) ?_) (fun _ => halike.steady)
      (fun _ => halike.onward) fun stage hc => absurd (calls_leave.symm.trans hc) (by simp)
    exact fun other ho hlock => absurd (Option.some.inj (hlock.symm.trans hf)) ho
  | cons name left =>
    have halike : Alike s (s.unlock.goTo id (.flushRead ⟨uploaded, missed, name, left⟩)) := ⟨rfl, rfl, rfl, rfl, rfl, rfl⟩
    refine h.advance (h.data.alike halike) (hmoves (fun _ ho => Function.update_of_ne ho _ _) fun _ _ hlock => hlock)
      (fun _ => halike.steady) (fun _ => halike.onward) fun stage hc => ?_
    cases calls_goTo hc
    exact ⟨fun hs => hs.elim, fun _ => hf, hl.onward halike.onward⟩

theorem Left.settling (hl : Left s (name :: names)) (hd : Done s name lost)
    (hr : lost = false → ¬ s.known.recalls name.key) : Settling config s name lost where
  mem      := hl.mem name List.mem_cons_self
  first    := by
    intro other ho
    obtain hm | hlt := hl.rest other ho
    · obtain rfl | hm := List.mem_cons.mp hm
      · exact .inl rfl
      · exact .inr (List.rel_of_pairwise_cons hl.sorted hm)
    · exact .inr (hlt name List.mem_cons_self)
  accepted := hd
  recalls  := hr

-- What is left once the first file is settled.
theorem Left.tail (hl : Left s (name :: names)) : Left (s.acknowledge name lost s.known) names where
  sorted := hl.sorted.tail
  mem    := by
    intro other ho
    have hm := (State.mem_unsettled.mp (hl.mem other (List.mem_cons_of_mem _ ho))).left
    exact State.mem_unsettled.mpr ⟨hm, List.rel_of_pairwise_cons hl.sorted ho⟩
  rest   := by
    intro other ho
    obtain ⟨hm, hup⟩ := State.mem_unsettled.mp ho
    have hlt : name.sequence < other.sequence := hup
    have hold : s.settled < other.sequence := (State.mem_unsettled.mp (hl.mem name List.mem_cons_self)).right.trans hlt
    obtain hin | hafter := hl.rest other (State.mem_unsettled.mpr ⟨hm, hold⟩)
    · obtain rfl | hin := List.mem_cons.mp hin
      · exact absurd hlt (lt_irrefl _)
      · exact .inl hin
    · exact .inr fun first hf => hafter first (List.mem_cons_of_mem _ hf)

theorem Sound.turn (h : Sound config s) (hc : s.calls id = some stage) (hm : stage.Meets s) :
    Sound config (s.turn id config choice stage).1 := by
  have hstage := h.calls id stage hc
  have hspool := h.spool id stage hc
  have hflush := h.flush id stage hc
  cases stage with
  | append identity records            =>
    simp only [State.turn]
    split
    case isTrue hfree => exact h.lockSpool hfree (fun hf => hf.elim) trivial
    case isFalse      => exact h
  | appendAck identity records         =>
    simp only [State.turn, h.data.known]
    split
    case isTrue           => exact h.leave
    case isFalse hrecalls => exact h.goTo (fun _ => hspool trivial) (fun hf => hf.elim) ⟨rfl, hrecalls⟩
  | appendFiles identity records ack   =>
    simp only [State.turn, h.data.known]
    split
    case h_1           => exact h.leave
    case h_2 hbuffered =>
      exact h.goTo (fun _ => hspool trivial) (fun hf => hf.elim) ⟨hstage.left, rfl, hstage.right, hbuffered⟩
  | appendSize identity records ack names =>
    obtain ⟨rfl, rfl, hrecalls, hbuffered⟩ := hstage
    simp only [State.turn]
    split
    case isTrue       => exact h.leave
    case isFalse hfit =>
      exact h.goTo (fun _ => hspool trivial) (fun hf => hf.elim)
        ⟨rfl, h.data.fresh hrecalls hbuffered (not_lt.mp hfit)⟩
  | appendWrite name entry             =>
    obtain ⟨rfl, hfresh⟩ := hstage
    simp only [State.turn]
    refine h.advance ((h.data.append hfresh).alike alike_leave) (moves_leave rfl rfl rfl)
      (fun hne => absurd (hspool trivial) hne) (fun _ => (onward_append h.data hfresh).alike alike_leave)
      fun stage hcall => absurd (calls_leave.symm.trans hcall) (by simp)
  | status                             =>
    simp only [State.turn]
    split
    case isTrue hfree => exact h.lockSpool hfree (fun hf => hf.elim) trivial
    case isFalse      => exact h
  | statusAck                          =>
    simp only [State.turn, h.data.known]
    exact h.goTo (fun _ => hspool trivial) (fun hf => hf.elim) trivial
  | statusFiles ack                    => exact h.leave
  | flush                              =>
    simp only [State.turn]
    split
    case isTrue hfree => exact h.lockFlush hfree (fun hs => hs.elim) trivial
    case isFalse      => exact h
  | flushFiles                         =>
    simp only [State.turn, h.data.known]
    exact h.following (hflush trivial) h.data.left_unsettled
  | flushRead f                        =>
    simp only [State.turn]
    split
    case isTrue  => exact h.leave
    case isFalse =>
      split
      case h_1 entry hr =>
        exact h.goTo (fun hs => hs.elim) (fun _ => hflush trivial)
          ⟨hstage, h.data.body _ entry hr, (read_eq_some.mp hr).right⟩
      case h_2          => exact h.goTo (fun hs => hs.elim) (fun _ => hflush trivial) ⟨hstage, by simp [Done]⟩
  | flushUpload f entry                =>
    obtain ⟨hleft, hmem, hseq⟩ := hstage
    have hup : s.settled < entry.sequence := hseq ▸ (State.mem_unsettled.mp (hleft.mem _ List.mem_cons_self)).right
    -- Every entry before this one is settled, since its file comes first of those that are not.
    have hbelow : ∀ a ∈ s.appended, a.sequence < entry.sequence → a.sequence ≤ s.settled := by
      intro a ha hlt
      obtain ⟨haup, ham⟩ | ⟨hle, -⟩ := h.data.accounted a ha
      · have hsettling : Settling config s f.name true := hleft.settling (by simp [Done]) (by simp)
        obtain heq | hfirst := hsettling.first _ (State.mem_unsettled.mpr ⟨ham, haup⟩)
        · have hsame : a.sequence = f.name.sequence := congrArg Name.sequence heq
          omega
        · have hlate : f.name.sequence < a.sequence := hfirst
          omega
      · exact hle
    have hnew : Sound config (s.upload entry choice.accepted) :=
      h.change (h.data.upload hmem hup hbelow) rfl rfl rfl steady_upload onward_upload
    simp only [State.turn]
    split
    case isTrue hacc =>
      refine hnew.goTo (fun hs => hs.elim) (fun _ => hflush trivial) ⟨hleft.onward onward_upload, fun _ => ⟨entry, ?_, hseq⟩⟩
      simp [State.upload, hacc]
    case isFalse     => exact hnew.leave
  | settle f lost                      =>
    simp only [State.turn]
    split
    case isTrue hfree => exact h.lockSpool hfree (fun _ => hflush trivial) hstage
    case isFalse      => exact h
  | settleAck f lost                   =>
    simp only [State.turn, h.data.known]
    split
    case isTrue hle =>
      have hup : s.settled < f.name.sequence := (State.mem_unsettled.mp (hstage.left.mem _ List.mem_cons_self)).right
      exact absurd hup (not_lt.mpr hle)
    case isFalse    => exact h.goTo (fun _ => hspool trivial) (fun _ => hflush trivial) ⟨rfl, hstage⟩
  | settleWrite f lost ack             =>
    obtain ⟨rfl, hleft, hdone⟩ := hstage
    have hsettling : Settling config s f.name lost := by
      refine hleft.settling hdone fun hlost => ?_
      subst hlost
      exact hm
    simp only [State.turn]
    refine h.advance ((h.data.acknowledge hsettling).alike alike_goTo) (moves_goTo rfl rfl rfl)
      (fun hne => absurd (hspool trivial) hne) (fun hne => absurd (hflush trivial) hne) fun stage hcall => ?_
    cases calls_goTo hcall
    exact ⟨fun _ => hspool trivial, fun _ => hflush trivial, hleft.tail.onward alike_goTo.onward, le_rfl⟩
  | settleRemove f lost                =>
    obtain ⟨hleft, hle⟩ := hstage
    have hnew : Sound config (s.remove f.name) :=
      h.change (h.data.remove hle) rfl rfl rfl (steady_remove hle) (onward_remove hle)
    exact hnew.unlocked (hspool trivial) (hflush trivial) (hleft.onward (onward_remove hle))

theorem Sound.step (h : Sound config s) (hm : Meets s e) : Sound config (step config s e) := by
  cases e with
  | call id call      =>
    simp only [Spool.step]
    split
    case isTrue  => exact h
    case isFalse => cases call <;> exact h.goTo (fun hs => hs.elim) (fun hf => hf.elim) trivial
  | turn id choice    =>
    cases hc : s.calls id with
    | none       =>
      simp only [Spool.step, hc]
      exact h
    | some stage =>
      simp only [Spool.step, hc]
      exact h.turn hc (hm stage hc)
  | crash id          => exact h.leave
  | corrupt name file =>
    simp only [Spool.step]
    split
    case isTrue hin => exact h.change (h.data.corrupt hm hin) rfl rfl rfl (steady_corrupt hm hin) (onward_corrupt hin)
    case isFalse    => exact h
  | corruptAck ack    => exact hm.elim

theorem Sound.run (h : Sound config s) (hm : Run.Along (Spool.step config) Meets s es) :
    Sound config (Run.run (Spool.step config) s es) :=
  hm.invariant (fun _ _ h hm => h.step hm) h

end Steps

section Effects

-- What a stage changes beyond the locks and the calls.
def State.change (config : Config) (s : State) (choice : Choice) : Stage → State
  | .appendWrite name entry   => s.appended_ name entry (config.length entry)
  | .flushUpload _ entry      => s.upload entry choice.accepted
  | .settleWrite f lost ack   => s.acknowledge f.name lost ack
  | .settleRemove f _         => s.remove f.name
  | _                         => s

theorem alike_following {uploaded missed : List ℕ} : Alike s (s.following id uploaded missed names).1 := by
  cases names with
  | nil  => exact alike_leave
  | cons => exact alike_goTo

theorem alike_turn : Alike (s.change config choice stage) (s.turn id config choice stage).1 := by
  have hsame : Alike s s := ⟨rfl, rfl, rfl, rfl, rfl, rfl⟩
  have hspool {stage : Stage} : Alike s ({ s with spoolLock := some id }.goTo id stage) := ⟨rfl, rfl, rfl, rfl, rfl, rfl⟩
  have hflush {stage : Stage} : Alike s ({ s with flushLock := some id }.goTo id stage) := ⟨rfl, rfl, rfl, rfl, rfl, rfl⟩
  cases stage with
  | append       => simp only [State.turn]; split; exacts [hspool, hsame]
  | appendAck    =>
    simp only [State.turn]
    split
    case h_1 => exact alike_leave
    case h_2 => split; exacts [alike_leave, alike_goTo]
  | appendFiles  =>
    simp only [State.turn]
    split
    case h_1 => exact alike_leave
    case h_2 => split; exacts [alike_leave, alike_goTo]
  | appendSize   => simp only [State.turn]; split; exacts [alike_leave, alike_goTo]
  | appendWrite  => exact alike_leave
  | status       => simp only [State.turn]; split; exacts [hspool, hsame]
  | statusAck    => simp only [State.turn]; split; exacts [alike_leave, alike_goTo]
  | statusFiles  => exact alike_leave
  | flush        => simp only [State.turn]; split; exacts [hflush, hsame]
  | flushFiles   => simp only [State.turn]; split; exacts [alike_leave, alike_following]
  | flushRead    =>
    simp only [State.turn]
    split
    case isTrue  => exact alike_leave
    case isFalse => split <;> exact alike_goTo
  | flushUpload  => simp only [State.turn]; split; exacts [alike_goTo, alike_leave]
  | settle       => simp only [State.turn]; split; exacts [hspool, hsame]
  | settleAck    =>
    simp only [State.turn]
    split
    case h_1 => exact alike_leave
    case h_2 => split <;> exact alike_goTo
  | settleWrite  => exact alike_goTo
  | settleRemove f lost =>
    have hunlocked : Alike (s.remove f.name) (s.remove f.name).unlock := ⟨rfl, rfl, rfl, rfl, rfl, rfl⟩
    have hnext : Alike (s.remove f.name).unlock (s.turn id config choice (.settleRemove f lost)).1 := alike_following
    exact ⟨hnext.batches.trans hunlocked.batches, hnext.ack, hnext.appended, hnext.tried, hnext.accepted, hnext.acked⟩

-- What is settled only grows, nothing above it is removed, and what is appended is fresh.
structure Grows (config : Config) (s s' : State) : Prop where
  settled  : s.settled ≤ s'.settled
  kept     : ∀ name ∈ s.batches, name ∈ s'.batches ∨ name.sequence ≤ s.settled
  appended : s'.appended = s.appended ∨ ∃ entry, Fresh config s entry ∧ s'.appended = s.appended ++ [entry]

theorem Grows.alike {s₁ : State} (h : Grows config s s₁) (ha : Alike s₁ s') : Grows config s s' where
  settled  := h.settled.trans (congrArg Ack.settled ha.known).ge
  kept     := by rw [ha.batches]; exact h.kept
  appended := by rw [ha.appended]; exact h.appended

theorem Grows.refl : Grows config s s :=
  ⟨le_rfl, fun _ => .inl, .inl rfl⟩

theorem Sound.grows_change (h : Sound config s) (hc : s.calls id = some stage) :
    Grows config s (s.change config choice stage) := by
  have hstage := h.calls id stage hc
  cases stage with
  | appendWrite name entry =>
    obtain ⟨rfl, hfresh⟩ := hstage
    exact ⟨le_rfl, fun name hm => .inl (Finmap.mem_insert.mpr (.inr hm)), .inr ⟨entry, hfresh, rfl⟩⟩
  | flushUpload            => exact ⟨le_rfl, fun _ => .inl, .inl rfl⟩
  | settleWrite f lost ack =>
    obtain ⟨rfl, hleft, -⟩ := hstage
    have hup := (State.mem_unsettled.mp (hleft.mem _ List.mem_cons_self)).right
    exact ⟨hup.le, fun _ => .inl, .inl rfl⟩
  | settleRemove f lost    =>
    refine ⟨le_rfl, fun name hm => ?_, .inl rfl⟩
    by_cases hn : name = f.name
    case pos => exact .inr (hn ▸ hstage.right)
    case neg => exact .inl (Finmap.mem_erase.mpr ⟨hn, hm⟩)
  | _                      => exact .refl

theorem Sound.grows (h : Sound config s) (hm : Meets s e) : Grows config s (Spool.step config s e) := by
  cases e with
  | call id call      =>
    simp only [Spool.step]
    split
    case isTrue  => exact .refl
    case isFalse => exact Grows.refl.alike alike_goTo
  | turn id choice    =>
    cases hc : s.calls id with
    | none       =>
      simp only [Spool.step, hc]
      exact .refl
    | some stage =>
      simp only [Spool.step, hc]
      exact (h.grows_change hc).alike alike_turn
  | crash id          => exact Grows.refl.alike alike_leave
  | corrupt name file =>
    simp only [Spool.step]
    split
    case isTrue hin => exact ⟨le_rfl, fun other ho => .inl ((mem_spoiled hin).mpr ho), .inl rfl⟩
    case isFalse    => exact .refl
  | corruptAck ack    => exact hm.elim

end Effects

section Results

-- The identity of a new entry is not pending, and not among those acknowledged last.
def New (config : Config) (s : State) (entry : Entry) : Prop :=
  config.key entry.identity ∉ latest recentIdentities s.acked ∧
  ∀ name ∈ s.unsettled, (read s.batches name).isSome → name.key ≠ config.key entry.identity

theorem Data.new (h : Data config s) (hf : Fresh config s entry) : New config s entry := by
  refine ⟨fun hm => hf.recalls ?_, fun name hn hr hk => ?_⟩
  · rw [Ack.recalls, h.recent]
    exact hm
  · rw [buffered_eq_none.mp hf.buffered name hn hk] at hr
    cases hr

-- The sequence numbers grow; every entry is still there or was settled, as accepted or lost; uploads come in order, and
-- none before all lower entries are settled; what is settled only grows, and nothing above it is removed; an identity
-- that is pending or was acknowledged lately is not appended again; and the pending bytes stay within their bound.
theorem spool_run (config : Config) (es : List Event) (h : Run.Along (step config) Meets empty es) :
    let s := Run.run (step config) empty es
    (s.appended.Pairwise fun a b => a.sequence < b.sequence) ∧
    (∀ entry ∈ s.appended, Accounted config s entry) ∧
    (s.tried ⊆ s.appended ∧ (s.tried.Pairwise fun a b => a.sequence ≤ b.sequence) ∧
      ∀ u ∈ s.tried, ∀ entry ∈ s.appended, entry.sequence < u.sequence → entry ∈ s.accepted ∨ entry.sequence ∈ s.known.lost) ∧
    (∀ e, Meets s e → s.settled ≤ (step config s e).settled ∧
      ∀ name ∈ s.batches, name ∈ (step config s e).batches ∨ name.sequence ≤ s.settled) ∧
    (∀ e entry, Meets s e → (step config s e).appended = s.appended ++ [entry] → New config s entry) ∧
    bytes s.batches s.unsettled ≤ config.maxBytes := by
  intro s
  have hs : Sound config s := Sound.empty.run h
  refine ⟨hs.data.sorted, hs.data.accounted, ⟨hs.data.tried, hs.data.ordered, ?_⟩, ?_, ?_, hs.data.bytes⟩
  · intro u hu entry he hlt
    have hle := hs.data.below u hu entry he hlt
    obtain ⟨hup, -⟩ | ⟨-, hdone⟩ := hs.data.accounted entry he
    · exact absurd hup (not_lt.mpr hle)
    · exact hdone
  · intro e hm
    have hgrows := hs.grows hm
    exact ⟨hgrows.settled, hgrows.kept⟩
  · intro e entry hm happended
    obtain hsame | ⟨found, hfresh, hfound⟩ := (hs.grows hm).appended
    · exact absurd (happended.symm.trans hsame) (by simp)
    · have heq : found = entry := by simpa using hfound.symm.trans happended
      exact heq ▸ hs.data.new hfresh

-- A spool of 100 bytes whose entries have 10 each.
def small : Config :=
  ⟨100, 80, fun text => text, fun _ => 10⟩

def turns (id n : ℕ) : List Event :=
  List.replicate n (.turn id ⟨0, true⟩)

-- An entry that is corrupted and settled as lost, one that is uploaded, and its identity appended again.
def flushed : List Event :=
  [.call 0 (.append "a" [])] ++ turns 0 5 ++ [.corrupt ⟨1, "a"⟩ ⟨none, 3⟩, .call 1 .flush] ++ turns 1 8 ++
    [.call 0 (.append "b" [])] ++ turns 0 5 ++ [.call 1 .flush] ++ turns 1 10 ++ [.call 0 (.append "b" [])] ++ turns 0 5

theorem spool_run_flushed : (Run.run (step small) empty flushed).appended.Pairwise fun a b => a.sequence < b.sequence :=
  (spool_run small flushed (by decide +kernel)).left

-- The file of acknowledgements is overwritten with one that says less, and the first sequence number is given again.
def rewound : List Event :=
  [.call 0 (.append "a" [])] ++ turns 0 5 ++ [.call 1 .flush] ++ turns 1 10 ++ [.corruptAck (some .initial)] ++
    [.call 0 (.append "b" [])] ++ turns 0 5

theorem spool_rewound :
    (Run.run (step small) empty (rewound.take 17)).settled = 1 ∧ (Run.run (step small) empty (rewound.take 18)).settled = 0 ∧
    ¬ (Run.run (step small) empty rewound).appended.Pairwise fun a b => a.sequence < b.sequence := by
  decide +kernel

end Results

end Spool
