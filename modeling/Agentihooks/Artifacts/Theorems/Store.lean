import Agentihooks.Artifacts.Store

namespace Artifacts

open Interleaved (Steps)

variable {hash : Hashing} {call : Call} {scope : Scope} {key source target : Key} {data : Blob} {ref : Ref}
variable {artifact name : String} {artifacts : List String}

-- A listing is of the folder that was asked for.
def Honest : (command : Command) → Reply command → Prop
  | .keys folder, listed => ∀ key ∈ listed, folder.Holds key
  | _,            _      => True

theorem honest_exec {command : Command} {choice : List Key} {st st' : Contents} {reply : Reply command}
    (h : exec hash command choice st = some (st', reply)) : Honest command reply := by
  cases command with
  | keys folder =>
    simp only [exec] at h
    split at h
    case isFalse    => cases h
    case isTrue hls =>
      cases h
      intro key hk
      have hm : key ∈ st.keys.filter folder.Holds := hls.right ▸ List.mem_toFinset.mpr hk
      exact (Finset.mem_filter.mp hm).right
  | _           => trivial

-- The digest that a key takes its value from: its own, or that of a value of its kind.
def Key.Takes (hash : Hashing) (sha256 : String) : Key → Prop
  | .object own    => own = sha256
  | .record _      => ∃ r, sha256 = (hash.of (.record r)).sha256
  | .manifest _ _  => ∃ m, sha256 = (hash.of (.manifest m)).sha256
  | .staging _ _   => False

-- Only staging keys are written, under the digest of what they hold; what is moved is of its kind; and a deletion
-- removes records and its object.
def Issues (hash : Hashing) (call : Call) : Command → Prop
  | .write key data     => ∃ execution, key = .staging execution (hash.of data).sha256
  | .move source target => ∃ execution sha256, source = .staging execution sha256 ∧ target.Takes hash sha256
  | .remove key         => ∀ scope ref, call = .delete scope ref → (∃ artifact, key = .record artifact) ∨ key = .object ref.sha256
  | _                   => True

-- What a put returns is the reference of its content.
def Returns (hash : Hashing) : Call → Answer → Prop
  | .put _ _ data, answer => answer = .ref (hash.of data)
  | _,             _      => True

abbrev Issued {α : Type} (hash : Hashing) (call : Call) (p : Steps Reply α) (Q : α → Prop) : Prop :=
  p.Keeps Honest (Issues hash call) Q

section Reads

theorem issued_size : Issued hash call (size key) fun _ => True :=
  Steps.keeps_perform.mpr ⟨trivial, fun _ _ => trivial⟩

theorem issued_read : Issued hash call (read key) fun _ => True := by
  refine ⟨trivial, fun data _ => ?_⟩
  cases data <;> trivial

theorem issued_keys {folder : Folder} : Issued hash call (keys folder) fun listed => ∀ key ∈ listed, folder.Holds key :=
  Steps.keeps_perform.mpr ⟨trivial, fun _ h => h⟩

theorem issued_ensure {q : Prop} [Decidable q] : Issued hash call (Steps.ensure q) fun _ => True :=
  Steps.keeps_ensure.mpr fun _ => trivial

theorem issued_matching : Issued hash call (matching hash key ref) fun _ => True := by
  refine issued_size.bind fun found _ => ?_
  split
  case isTrue  => trivial
  case isFalse => exact (Steps.keeps_each fun _ _ => issued_read).bind fun _ _ => trivial

theorem issued_document : Issued hash call (document hash key) fun _ => True := by
  refine issued_size.bind fun found _ => ?_
  split
  case h_1 => trivial
  case h_2 => exact issued_read.bind fun _ _ => issued_ensure.bind fun _ _ => trivial

theorem issued_recorded : Issued hash call (recorded hash artifact) fun _ => True := by
  refine issued_ensure.bind fun _ _ => ?_
  refine issued_document.bind fun found _ => ?_
  split <;> trivial

theorem issued_stat : Issued hash call (stat hash ref) fun _ => True := by
  refine issued_size.bind fun found _ => ?_
  split
  case h_1 => trivial
  case h_2 => exact issued_matching.bind fun _ _ => trivial

end Reads

section Publications

variable (hcall : ∀ scope ref, call ≠ .delete scope ref)

include hcall

theorem issued_remove : Issued hash call (remove key) fun _ => True :=
  Steps.keeps_perform.mpr ⟨fun scope ref hc => absurd hc (hcall scope ref), fun _ _ => trivial⟩

theorem issued_confirm : Issued hash call (confirm hash key ref) fun _ => True := by
  refine issued_matching.bind fun sound _ => ?_
  split
  case isTrue  => trivial
  case isFalse => exact (issued_remove hcall).bind fun _ _ => trivial

theorem issued_publish (hk : key.Takes hash (hash.of data).sha256) :
    Issued hash call (publish hash scope key data) fun _ => True := by
  refine Steps.Keeps.bind (Q := fun _ => True) (Steps.Keeps.followedBy ?_ (issued_remove hcall)) fun _ _ => issued_confirm hcall
  refine Steps.Keeps.bind (Q := fun _ => True) ⟨⟨_, rfl⟩, fun _ _ => trivial⟩ fun _ _ => ?_
  refine (issued_confirm hcall).bind fun _ _ => ⟨⟨_, _, rfl, hk⟩, fun moved _ => ?_⟩
  exact issued_ensure

omit hcall in
theorem takes_record {r : Record} : (Key.record artifact).Takes hash (hash.of (.record r)).sha256 :=
  ⟨r, rfl⟩

omit hcall in
theorem takes_manifest {m : Manifest} {generation : ℤ} :
    (Key.manifest name generation).Takes hash (hash.of (.manifest m)).sha256 :=
  ⟨m, rfl⟩

omit hcall in
theorem takes_object : (Key.object (hash.of data).sha256).Takes hash (hash.of data).sha256 :=
  rfl

theorem issued_put : Issued hash call (put hash scope artifact data) fun ref => ref = hash.of data := by
  refine issued_recorded.bind fun found _ => ?_
  refine issued_ensure.bind fun _ _ => issued_stat.bind fun status _ => ?_
  have hlast : Issued hash call (do
      if found = none then
        publish hash scope (.record artifact) (.record ⟨hash.of data, scope.execution, scope.generation⟩)
      return hash.of data) fun ref => ref = hash.of data := by
    split
    case isTrue  => exact (issued_publish hcall takes_record).bind fun _ _ => rfl
    case isFalse => exact rfl
  simp only [ite_not]
  split
  case isTrue  => exact hlast
  case isFalse => exact (issued_publish hcall takes_object).bind fun _ _ => hlast

end Publications

theorem issued_committed : Issued hash call (committed hash artifact) fun _ => True := by
  refine issued_recorded.bind fun found _ => ?_
  split
  case h_1 => trivial
  case h_2 => exact issued_stat.bind fun _ _ => issued_ensure.bind fun _ _ => trivial

theorem issued_generations : Issued hash call (generations name) fun _ => True :=
  issued_keys.bind fun _ _ => trivial

theorem issued_commitManifest (hcall : ∀ scope ref, call ≠ .delete scope ref) :
    Issued hash call (commitManifest hash scope name artifacts) fun _ => True := by
  refine issued_ensure.bind fun _ _ => ?_
  refine (Steps.keeps_each fun _ _ => issued_committed).bind fun found _ => ?_
  refine issued_generations.bind fun newer _ => issued_ensure.bind fun _ _ => ?_
  refine issued_document.bind fun existing _ => ?_
  split
  case h_1 => exact (issued_publish hcall takes_manifest).bind fun _ _ => trivial
  case h_2 => exact issued_ensure.bind fun _ _ => trivial

section Deletions

theorem issued_listing : Issued hash call (listing hash key) fun _ => True := by
  refine issued_document.bind fun found _ => ?_
  split <;> trivial

theorem issued_listed {keys : List Key} : Issued hash call (listed hash ref keys) fun _ => True := by
  induction keys with
  | nil           => trivial
  | cons key keys ih =>
    refine issued_listing.bind fun m _ => ?_
    split
    case isTrue  => trivial
    case isFalse => exact ih

theorem issued_keyed : Issued hash call (keyed hash key) fun item => item.1 = key :=
  issued_document.bind fun _ _ => rfl

theorem issued_references {documents : List (Key × Option Blob)} :
    Issued hash call (references documents) fun records => ∀ item ∈ records, item.1 ∈ documents.map Prod.fst := by
  induction documents with
  | nil => exact List.forall_mem_nil _
  | cons document documents ih =>
    obtain ⟨key, data⟩ := document
    unfold references
    split
    case h_1 h                => cases h
    case h_2 key' r rest h    =>
      cases h
      refine ih.bind fun found hfound => ?_
      refine List.forall_mem_cons.mpr ⟨List.mem_cons_self, fun item hi => ?_⟩
      exact List.mem_cons_of_mem _ (hfound item hi)
    case h_3                  => trivial

theorem issued_deleteIfUnreferenced :
    Issued hash (.delete scope ref) (deleteIfUnreferenced hash scope ref) fun _ => True := by
  refine issued_keys.bind fun manifests _ => issued_listed.bind fun found _ => ?_
  split
  case isTrue => trivial
  refine issued_keys.bind fun artifacts hartifacts => ?_
  have hkeyed : Issued hash (.delete scope ref) (Steps.each (keyed hash) artifacts)
      fun documents => ∀ item ∈ documents, Folder.artifacts.Holds item.1 := by
    refine Steps.keeps_each fun key hk => issued_keyed.imp fun item hi => ?_
    exact hi ▸ hartifacts key hk
  refine hkeyed.bind fun documents hdocuments => issued_references.bind fun records hrecords => ?_
  -- Each of the records that are removed was listed as one.
  have howned : ∀ key ∈ (records.filter fun item => item.2.ref = ref).map Prod.fst, ∃ artifact, key = .record artifact := by
    intro key hk
    obtain ⟨item, hi, rfl⟩ := List.mem_map.mp hk
    obtain ⟨document, hd, hkey⟩ := List.mem_map.mp (hrecords item (List.mem_of_mem_filter hi))
    have hholds : Folder.artifacts.Holds item.1 := hkey ▸ hdocuments document hd
    cases hitem : item.1 with
    | record artifact => exact ⟨artifact, rfl⟩
    | _               => simp [hitem, Folder.Holds] at hholds
  have hremove {key : Key} (hk : (∃ artifact, key = .record artifact) ∨ key = .object ref.sha256) :
      Issued hash (.delete scope ref) (remove key) fun _ => True := by
    refine Steps.keeps_perform.mpr ⟨fun scope' ref' hc => ?_, fun _ _ => trivial⟩
    cases hc
    exact hk
  dsimp only
  split
  case isTrue  => trivial
  case isFalse =>
    refine (Steps.keeps_each fun key hk => hremove (.inl (howned key hk))).bind fun _ _ => ?_
    exact (hremove (.inr rfl)).bind fun _ _ => trivial

end Deletions

theorem issued_program : ∀ call, (program hash call).Keeps Honest (Issues hash call) (Returns hash call) := by
  intro call
  cases call with
  | put scope artifact data       => exact (issued_put (by simp)).map fun ref hr => congrArg Answer.ref hr
  | commit scope name artifacts   => exact (issued_commitManifest (by simp)).map fun _ _ => trivial
  | delete scope ref              => exact issued_deleteIfUnreferenced.map fun _ _ => trivial

end Artifacts

namespace Artifacts

variable {hash : Hashing} {call : Call} {command : Command} {choice : List Key} {st st' : Contents} {w : World} {e : Event}
variable {es : List Event} {key : Key} {data : Blob} {ref : Ref} {id : ℕ} {artifact name : String} {generation : ℤ}

section Conditions

-- What `stat` finds.
def Verified (hash : Hashing) (st : Contents) (ref : Ref) : Prop :=
  (st.lookup (.object ref.sha256)).map hash.of = some ref

instance : Decidable (Verified hash st ref) :=
  inferInstanceAs (Decidable (_ = _))

def Manifest.Verified (hash : Hashing) (st : Contents) (m : Manifest) : Prop :=
  ∀ artifact ∈ m.artifacts.keys, ∀ ref ∈ m.artifacts.lookup artifact, Artifacts.Verified hash st ref

instance {m : Manifest} : Decidable (m.Verified hash st) :=
  inferInstanceAs (Decidable (∀ artifact ∈ m.artifacts.keys, _))

def Manifest.Spares (m : Manifest) (sha256 : String) : Prop :=
  ∀ artifact ∈ m.artifacts.keys, ∀ ref ∈ m.artifacts.lookup artifact, ref.sha256 ≠ sha256

instance {m : Manifest} {sha256 : String} : Decidable (m.Spares sha256) :=
  inferInstanceAs (Decidable (∀ artifact ∈ m.artifacts.keys, _))

def Blob.manifest? : Blob → Option Manifest
  | .manifest m => some m
  | _           => none

def Blob.record? : Blob → Option Record
  | .record r => some r
  | _         => none

-- There is no newer generation of the name.
def Newest (st : Contents) (name : String) (generation : ℤ) : Prop :=
  ∀ key ∈ st.keys, (Folder.manifest name).Holds key → ∀ newer ∈ key.generation?, newer ≤ generation

instance : Decidable (Newest st name generation) :=
  inferInstanceAs (Decidable (∀ key ∈ st.keys, _))

-- No manifest lists an object of that digest.
def Unlisted (st : Contents) (sha256 : String) : Prop :=
  ∀ key ∈ st.keys, Folder.manifests.Holds key → ∀ data ∈ st.lookup key, ∀ m ∈ data.manifest?, m.Spares sha256

instance {sha256 : String} : Decidable (Unlisted st sha256) :=
  inferInstanceAs (Decidable (∀ key ∈ st.keys, _))

-- What the call has found before it moves a value to its place still is so: there is no record yet, no manifest of the
-- generation and none of a newer one, and the listed objects are verified. An object replaces only itself.
def Lands (hash : Hashing) (st : Contents) (data : Blob) : Key → Prop
  | .object sha256            => ∀ old ∈ st.lookup (.object sha256), hash.of old = hash.of data
  | .record artifact          => st.lookup (.record artifact) = none
  | .manifest name generation => st.lookup (.manifest name generation) = none ∧ Newest st name generation ∧
      ∃ m ∈ data.manifest?, m.Verified hash st
  | .staging _ _              => True

instance : Decidable (Lands hash st data key) :=
  match key with
  | .object _     => inferInstanceAs (Decidable (∀ old ∈ st.lookup _, _))
  | .record _     => inferInstanceAs (Decidable (st.lookup _ = none))
  | .manifest _ _ => inferInstanceAs (Decidable (_ ∧ _ ∧ _))
  | .staging _ _  => inferInstanceAs (Decidable True)

-- What a deletion has found before it removes a key still is so: the record names the reference, and no manifest lists
-- the object.
def Expires (st : Contents) (ref : Ref) : Key → Prop
  | .record artifact => ∀ data ∈ st.lookup (.record artifact), data.record?.map Record.ref = some ref
  | .object sha256   => Unlisted st sha256
  | _                => True

instance : Decidable (Expires st ref key) :=
  match key with
  | .object _                     => inferInstanceAs (Decidable (Unlisted st _))
  | .record _                     => inferInstanceAs (Decidable (∀ data ∈ st.lookup _, _))
  | .manifest _ _ | .staging _ _  => inferInstanceAs (Decidable True)

-- A publication that could not be confirmed takes nothing away but what it has staged.
def Withdraws (st : Contents) : Key → Prop
  | .staging _ _ => True
  | key          => st.lookup key = none

instance : Decidable (Withdraws st key) :=
  match key with
  | .staging _ _                            => inferInstanceAs (Decidable True)
  | .object _ | .record _ | .manifest _ _   => inferInstanceAs (Decidable (st.lookup _ = none))

def MeetsAt (hash : Hashing) (st : Contents) (call : Call) : Command → Prop
  | .move source target => ∀ data ∈ st.lookup source, Lands hash st data target
  | .remove key         =>
    match call with
    | .delete _ ref => Expires st ref key
    | _             => Withdraws st key
  | _                   => True

instance : Decidable (MeetsAt hash st call command) := by
  unfold MeetsAt
  cases command with
  | remove key => cases call <;> infer_instance
  | _          => infer_instance

-- A put that returns has its object.
def Meets (hash : Hashing) (w : World) : Event → Prop
  | .turn id _ =>
    match w.calls id with
    | some ⟨call, .ask command _⟩   => MeetsAt hash w.shared call command
    | some ⟨_, .done (.ref ref)⟩    => Verified hash w.shared ref
    | _                             => True
  | _          => True

instance : Decidable (Meets hash w e) := by
  unfold Meets
  split
  case h_1 => split <;> infer_instance
  case h_2 => infer_instance

end Conditions

section Effects

-- The staging area apart, a key changes only by a move to it and by its removal.
theorem lookup_exec {reply : Reply command} (key : Key) (hi : Issues hash call command)
    (hx : exec hash command choice st = some (st', reply)) (hk : ∀ execution sha256, key ≠ .staging execution sha256) :
    st'.lookup key = st.lookup key ∨
    (∃ source data, command = .move source key ∧ st.lookup source = some data ∧ st'.lookup key = some data) ∨
    (command = .remove key ∧ st'.lookup key = none) := by
  cases command with
  | write target data  =>
    obtain ⟨execution, rfl⟩ := hi
    cases hx
    exact .inl (Finmap.lookup_insert_of_ne _ (hk _ _))
  | size               => cases hx; exact .inl rfl
  | read               => cases hx; exact .inl rfl
  | move source target =>
    obtain ⟨execution, sha256, rfl, -⟩ := hi
    simp only [exec] at hx
    split at hx
    case h_2          => cases hx; exact .inl rfl
    case h_1 data hd  =>
      cases hx
      by_cases ht : key = target
      case pos =>
        subst ht
        exact .inr (.inl ⟨_, data, rfl, hd, Finmap.lookup_insert _⟩)
      case neg =>
        left
        rw [Finmap.lookup_insert_of_ne _ ht, Finmap.lookup_erase_ne (hk _ _)]
  | remove target      =>
    cases hx
    by_cases ht : key = target
    case pos =>
      subst ht
      exact .inr (.inr ⟨rfl, Finmap.lookup_erase _ _⟩)
    case neg => exact .inl (Finmap.lookup_erase_ne ht)
  | keys               =>
    simp only [exec] at hx
    split at hx
    case isTrue  => cases hx; exact .inl rfl
    case isFalse => cases hx

end Effects

section Steps

-- A deletion of the reference that removes the key.
def Deletes (w : World) (ref : Ref) (key : Key) : Event → Prop
  | .turn id _ => ∃ scope, w.At id (.delete scope ref) (.remove key)
  | _          => False

abbrev Fits (hash : Hashing) (w : World) : Prop :=
  Interleaved.Fits Honest (Issues hash) (Returns hash) w

theorem shared_step (hash : Hashing) (w : World) (e : Event) :
    (step hash w e).shared = w.shared ∨
    ∃ id choice call command reply, e = .turn id choice ∧ w.At id call command ∧
      exec hash command choice w.shared = some ((step hash w e).shared, reply) :=
  Interleaved.shared_step w e

theorem meetsAt_of_at (hm : Meets hash w (.turn id choice)) (hi : w.At id call command) :
    MeetsAt hash w.shared call command := by
  obtain ⟨next, hc⟩ := hi
  simpa only [Meets, hc] using hm

-- What a step may do to a key outside the staging area, and what is so where it does it.
inductive Touches (hash : Hashing) (w : World) (e : Event) (key : Key) : Prop
  | keep     : (step hash w e).shared.lookup key = w.shared.lookup key → Touches hash w e key
  | move     : (data : Blob) → Lands hash w.shared data key → (step hash w e).shared.lookup key = some data →
      (∀ sha256, .object sha256 ≠ key → (step hash w e).shared.lookup (.object sha256) = w.shared.lookup (.object sha256)) →
      Touches hash w e key
  | withdraw : w.shared.lookup key = none → (step hash w e).shared.lookup key = none → Touches hash w e key
  | delete   : (ref : Ref) → Deletes w ref key e → Expires w.shared ref key → (step hash w e).shared.lookup key = none →
      ((∃ artifact, key = .record artifact) ∨ key = .object ref.sha256) → Touches hash w e key

theorem touches (key : Key) (hf : Fits hash w) (hm : Meets hash w e) (hk : ∀ execution sha256, key ≠ .staging execution sha256) :
    Touches hash w e key := by
  obtain hs | ⟨id, choice, call, command, reply, rfl, hi, hx⟩ :=
    shared_step hash w e
  · exact .keep (congrArg (Finmap.lookup key) hs)
  have hat := meetsAt_of_at hm hi
  have hissues := hf.command hi
  obtain hsame | ⟨source, data, rfl, hd, hl⟩ | ⟨rfl, hl⟩ := lookup_exec key hissues hx hk
  · exact .keep hsame
  · refine .move data (hat data hd) hl fun sha256 hne => ?_
    obtain hsame | ⟨source', data', hc, -⟩ | ⟨hc, -⟩ := lookup_exec (.object sha256) hissues hx (by simp)
    · exact hsame
    · cases hc
      exact absurd rfl hne
    · cases hc
  · cases call with
    | delete scope ref => exact .delete ref ⟨scope, hi⟩ hat hl (hissues scope ref rfl)
    | _                =>
      refine .withdraw ?_ hl
      cases key with
      | staging execution sha256 => exact absurd rfl (hk execution sha256)
      | _                        => exact hat

-- A verified object stays so until a deletion of its digest removes it.
theorem verified_step (hf : Fits hash w) (hm : Meets hash w e) (hv : Verified hash w.shared ref) :
    Verified hash (step hash w e).shared ref ∨ ∃ ref', ref'.sha256 = ref.sha256 ∧ Deletes w ref' (.object ref.sha256) e ∧
      Unlisted w.shared ref.sha256 := by
  cases touches (.object ref.sha256) hf hm (by simp) with
  | keep hl                  => exact .inl (by rwa [Verified, hl])
  | move data hlands hl _    =>
    obtain ⟨old, hold, hof⟩ := Option.map_eq_some_iff.mp hv
    left
    rw [Verified, hl, Option.map_some, ← hlands old hold, hof]
  | withdraw hn              => simp [Verified, hn] at hv
  | delete ref' hd hx _ hkey =>
    obtain ⟨_, hk⟩ | hk := hkey
    · cases hk
    · exact .inr ⟨ref', (Key.object.inj hk).symm, hd, hx⟩

-- A manifest stays as it is.
theorem manifest_step (hf : Fits hash w) (hm : Meets hash w e) (hl : w.shared.lookup (.manifest name generation) = some data) :
    (step hash w e).shared.lookup (.manifest name generation) = some data := by
  cases touches (.manifest name generation) hf hm (by simp) with
  | keep hs                => exact hs.trans hl
  | move data' hn          => exact absurd (hn.left.symm.trans hl) (by simp)
  | withdraw hn            => exact absurd (hn.symm.trans hl) (by simp)
  | delete ref hd hx _ hk  => simp at hk

-- A manifest is committed where there is none of a newer generation, and lists objects that are verified.
theorem committed_step (hf : Fits hash w) (hm : Meets hash w e) (hn : w.shared.lookup (.manifest name generation) = none)
    (hl : (step hash w e).shared.lookup (.manifest name generation) = some data) :
    Newest w.shared name generation ∧ ∃ m ∈ data.manifest?, m.Verified hash (step hash w e).shared := by
  cases touches (.manifest name generation) hf hm (by simp) with
  | keep hs                     => exact absurd (hl.symm.trans (hs.trans hn)) (by simp)
  | move data' hlands hl' hrest =>
    cases hl.symm.trans hl'
    obtain ⟨-, hnewest, m, hm', hverified⟩ := hlands
    refine ⟨hnewest, m, hm', fun artifact ha ref hr => ?_⟩
    rw [Verified, hrest ref.sha256 (by simp)]
    exact hverified artifact ha ref hr
  | withdraw _ hl'              => exact absurd (hl.symm.trans hl') (by simp)
  | delete _ _ _ hl'            => exact absurd (hl.symm.trans hl') (by simp)

end Steps

section Runs

-- Every manifest is one, and the objects it lists are verified.
def Committed (hash : Hashing) (st : Contents) : Prop :=
  ∀ name generation data, st.lookup (.manifest name generation) = some data → ∃ m ∈ data.manifest?, m.Verified hash st

structure Sound (hash : Hashing) (w : World) : Prop where
  fits      : Fits hash w
  committed : Committed hash w.shared

theorem Sound.empty : Sound hash empty where
  fits      := .start
  committed := by simp [Committed, Artifacts.empty, Interleaved.World.start]

theorem Sound.step (h : Sound hash w) (hm : Meets hash w e) : Sound hash (step hash w e) where
  fits      := h.fits.step issued_program fun _ _ _ _ _ => honest_exec
  committed := by
    intro name generation data hl
    cases hold : w.shared.lookup (.manifest name generation) with
    | none      => exact (committed_step h.fits hm hold hl).right
    | some data =>
      cases hl.symm.trans (manifest_step h.fits hm hold)
      obtain ⟨m, hdata, hverified⟩ := h.committed name generation data hold
      refine ⟨m, hdata, fun artifact ha ref hr => ?_⟩
      obtain hv | ⟨_, _, _, hunlisted⟩ := verified_step h.fits hm (hverified artifact ha ref hr)
      · exact hv
      -- Its object is not removed, since the manifest lists it.
      · have hkey : Key.manifest name generation ∈ w.shared.keys := Finmap.mem_keys.mpr (Finmap.mem_of_lookup_eq_some hold)
        exact absurd rfl (hunlisted _ hkey trivial data hold m hdata artifact ha ref hr)

theorem Sound.run (h : Sound hash w) (hm : Run.Along (Artifacts.step hash) (Meets hash) w es) :
    Sound hash (Run.run (Artifacts.step hash) w es) :=
  hm.invariant (fun _ _ h hm => h.step hm) h

-- No deletion removes the object of that digest.
def Keeps (sha256 : String) (w : World) (e : Event) : Prop :=
  ∀ ref : Ref, ref.sha256 = sha256 → ¬ Deletes w ref (.object sha256) e

-- A digest that spells out what it is of, as far as the runs below need it.
def spelled : Hashing where
  of
    | .other bytes => ⟨"other" ++ String.ofList (bytes.map fun b => Char.ofNat b.toNat), bytes.length⟩
    | .record r    => ⟨"record" ++ r.ref.sha256 ++ r.execution, 200⟩
    | .manifest m  => ⟨"manifest" ++ m.name ++ m.execution, 200⟩
  mixed := fun _ => ""

def turns (id n : ℕ) : List Event :=
  List.replicate n (.turn id [])

-- An artifact is put, listed by a manifest and asked to be deleted, which the manifest prevents.
def published : List Event :=
  [.call 0 (.put ⟨"e", 1⟩ "a" (.other [65]))] ++ turns 0 20 ++ [.call 1 (.commit ⟨"e", 1⟩ "m" ["a"])] ++ turns 1 20 ++
    [.call 2 (.delete ⟨"e", 1⟩ ⟨"otherA", 1⟩), .turn 2 [.manifest "m" 1]] ++ turns 2 5

end Runs

section Collisions

-- What is staged and what is an object has the digest it is kept under.
structure Named (hash : Hashing) (st : Contents) : Prop where
  staging : ∀ execution sha256 data, st.lookup (.staging execution sha256) = some data → (hash.of data).sha256 = sha256
  object  : ∀ sha256 data, st.lookup (.object sha256) = some data → (hash.of data).sha256 = sha256

theorem Named.insert {sha256 : String} (h : Named hash st) (hd : (hash.of data).sha256 = sha256)
    (hk : (∃ execution, key = .staging execution sha256) ∨ key.Takes hash sha256) : Named hash (st.insert key data) where
  staging := by
    intro execution sha256' data' hl
    by_cases he : .staging execution sha256' = key
    case pos =>
      subst he
      cases (Finmap.lookup_insert _).symm.trans hl
      obtain ⟨_, hs⟩ | ht := hk
      · cases hs
        exact hd
      · exact ht.elim
    case neg => exact h.staging execution sha256' data' ((Finmap.lookup_insert_of_ne _ he).symm.trans hl)
  object  := by
    intro sha256' data' hl
    by_cases he : .object sha256' = key
    case pos =>
      subst he
      cases (Finmap.lookup_insert _).symm.trans hl
      obtain ⟨_, hs⟩ | ht := hk
      · cases hs
      · exact hd.trans (Eq.symm ht)
    case neg => exact h.object sha256' data' ((Finmap.lookup_insert_of_ne _ he).symm.trans hl)

theorem Named.erase (h : Named hash st) : Named hash (st.erase key) where
  staging := fun execution sha256 data hl => h.staging execution sha256 data (Finmap.lookup_erase_eq_some.mp hl).right
  object  := fun sha256 data hl => h.object sha256 data (Finmap.lookup_erase_eq_some.mp hl).right

theorem Named.exec {reply : Reply command} (h : Named hash st) (hi : Issues hash call command)
    (hx : exec hash command choice st = some (st', reply)) : Named hash st' := by
  cases command with
  | write key data     =>
    obtain ⟨execution, rfl⟩ := hi
    cases hx
    exact h.insert rfl (.inl ⟨execution, rfl⟩)
  | size               => cases hx; exact h
  | read               => cases hx; exact h
  | move source target =>
    obtain ⟨execution, sha256, rfl, htakes⟩ := hi
    simp only [Artifacts.exec] at hx
    split at hx
    case h_2         => cases hx; exact h
    case h_1 data hd =>
      cases hx
      exact h.erase.insert (h.staging execution sha256 data hd) (.inr htakes)
  | remove key         => cases hx; exact h.erase
  | keys               =>
    simp only [Artifacts.exec] at hx
    split at hx
    case isTrue  => cases hx; exact h
    case isFalse => cases hx

theorem fits_run : Fits hash (Run.run (step hash) empty es) :=
  Interleaved.Fits.start.run issued_program fun _ _ _ _ _ => honest_exec

theorem named_run : Named hash (Run.run (step hash) empty es).shared := by
  have hstep (w : World) (e : Event) (hw : Fits hash w ∧ Named hash w.shared) :
      Fits hash (step hash w e) ∧ Named hash (step hash w e).shared := by
    refine ⟨hw.left.step issued_program fun _ _ _ _ _ => honest_exec, ?_⟩
    obtain hs | ⟨id, choice, call, command, reply, rfl, hi, hx⟩ :=
      shared_step hash w e
    · exact (congrArg (Named hash) hs).mpr hw.right
    · exact hw.right.exec (hw.left.command hi) hx
  have hempty : Named hash empty.shared := ⟨by simp [empty, Interleaved.World.start], by simp [empty, Interleaved.World.start]⟩
  exact (Run.invariant hstep ⟨.start, hempty⟩).right

-- Where no two values have one digest, an object is only ever replaced by itself, and what is moved to a manifest is one.
theorem moved_of_injective (hinj : Function.Injective fun data => (hash.of data).sha256)
    {source target : Key} (hi : (Run.run (step hash) empty es).At id call (.move source target))
    (hd : (Run.run (step hash) empty es).shared.lookup source = some data) :
    (∀ sha256 old, target = .object sha256 → (Run.run (step hash) empty es).shared.lookup target = some old → old = data) ∧
    (∀ name generation, target = .manifest name generation → ∃ m, data = .manifest m) := by
  have hnamed : Named hash (Run.run (step hash) empty es).shared := named_run
  obtain ⟨execution, sha256, rfl, htakes⟩ := fits_run.command hi
  have hdata := hnamed.staging execution sha256 data hd
  constructor
  · rintro own old rfl hold
    exact hinj ((hnamed.object own old hold).trans ((show own = sha256 from htakes).trans hdata.symm))
  · rintro name generation rfl
    obtain ⟨m, hm⟩ := htakes
    exact ⟨m, hinj (hdata.trans hm)⟩

end Collisions

end Artifacts
