import Agentihooks.Collection.System

namespace Collection

open Ingest (Scope)

section Catalog

variable {c c' : Catalog} {d : String} {k k' : String × String} {r r' : Reservation}

theorem anyRow_iff {p : String → Reservation → Prop} :
    c.anyRow d p ↔ ∃ k r, c.reservations.lookup k = some r ∧ r.objectDigest = d ∧ p k.1 r :=
  Iff.rfl

theorem collecting_iff : c.collecting d ↔ ∃ k r, c.reservations.lookup k = some r ∧ r.objectDigest = d ∧ r.state = .collecting :=
  Iff.rfl

-- The reservations of a digest are collected together, and all for one domain.
def Catalog.Uniform (c : Catalog) : Prop :=
  ∀ k r k' r', c.reservations.lookup k = some r → c.reservations.lookup k' = some r' → r.objectDigest = r'.objectDigest →
    r.state = .collecting → r'.state = .collecting ∧ k'.1 = k.1

-- Rows that are all old keep a catalog uniform.
theorem Uniform.of_subset (hc : c.Uniform)
    (h : ∀ k r, c'.reservations.lookup k = some r → c.reservations.lookup k = some r) : c'.Uniform :=
  fun k r k' r' hk hk' => hc k r k' r' (h k r hk) (h k' r' hk')

-- A new reservation of a digest that is not collected.
theorem Catalog.Uniform.insert {key : String × String} {row : Reservation} (hc : c.Uniform)
    (hn : c.reservations.lookup key = none) (hfree : ¬c.collecting row.objectDigest) (hr : row.state = .reserved) :
    { c with reservations := c.reservations.insert key row : Catalog }.Uniform := by
  have hcases {k : String × String} {r : Reservation} (hk : (c.reservations.insert key row).lookup k = some r) :
      r = row ∨ c.reservations.lookup k = some r := by
    by_cases hkey : k = key
    case pos =>
      subst hkey
      exact .inl (Option.some.inj ((Finmap.lookup_insert _).symm.trans hk)).symm
    case neg => exact .inr ((Finmap.lookup_insert_of_ne _ hkey).symm.trans hk)
  intro k r k' r' hk hk' hd hstate
  obtain rfl | hold := hcases hk
  case inl => cases hr.symm.trans hstate
  case inr =>
    obtain rfl | hold' := hcases hk'
    · exact absurd ⟨k, r, hold, hd, hstate⟩ hfree
    · exact hc k r k' r' hold hold' hd hstate

theorem lookup_settle : (c.settle d).reservations.lookup k = some r ↔
    c.reservations.lookup k = some r ∧ ¬(r.objectDigest = d ∧ r.state = .collecting) :=
  Finmap.lookup_select_eq_some

theorem lookup_dropDigest : (c.dropDigest d).reservations.lookup k = some r ↔
    c.reservations.lookup k = some r ∧ r.objectDigest ≠ d :=
  Finmap.lookup_select_eq_some

theorem lookup_mark : (c.mark d).reservations.lookup k = some r ↔ ∃ r₀, c.reservations.lookup k = some r₀ ∧
    r = if r₀.objectDigest = d then { r₀ with state := .collecting } else r₀ := by
  simp only [Catalog.mark, Finmap.lookup_mapValues, Option.map_eq_some_iff, eq_comm (b := r)]

theorem collecting_settle {e : String} (hc : c.collecting e) (hne : e ≠ d) : (c.settle d).collecting e := by
  obtain ⟨k, r, hk, rfl, hr⟩ := hc
  exact ⟨k, r, lookup_settle.mpr ⟨hk, fun h => hne h.left⟩, rfl, hr⟩

theorem not_collecting_settle : ¬(c.settle d).collecting d := by
  rintro ⟨k, r, hk, hd, hr⟩
  exact (lookup_settle.mp hk).right ⟨hd, hr⟩

theorem collecting_dropDigest {e : String} (hc : c.collecting e) (hne : e ≠ d) : (c.dropDigest d).collecting e := by
  obtain ⟨k, r, hk, rfl, hr⟩ := hc
  exact ⟨k, r, lookup_dropDigest.mpr ⟨hk, hne⟩, rfl, hr⟩

theorem not_collecting_dropDigest : ¬(c.dropDigest d).collecting d := by
  rintro ⟨k, r, hk, hd, hr⟩
  exact (lookup_dropDigest.mp hk).right hd

theorem collecting_mark {e : String} (hc : c.collecting e) : (c.mark d).collecting e := by
  obtain ⟨k, r, hk, rfl, hr⟩ := hc
  refine ⟨k, _, lookup_mark.mpr ⟨r, hk, rfl⟩, ?_, ?_⟩ <;> split <;> simp [hr]

-- What it is for a digest to be the plan's to collect.
structure Owned (c : Catalog) (plan : Plan) (d : String) : Prop where
  row     : ∃ k r, c.reservations.lookup k = some r ∧ r.objectDigest = d
  domain  : ∀ k r, c.reservations.lookup k = some r → r.objectDigest = d → k.1 = plan.corpus
  expired : ∀ k r, c.reservations.lookup k = some r → r.objectDigest = d → r.state = .reserved →
    r.expiresAt + plan.grace ≤ plan.now

theorem owned_of_owner {plan : Plan} (h : c.owner plan d = none) : Owned c plan d := by
  unfold Catalog.owner at h
  split at h
  case isTrue  => cases h
  case isFalse hsome =>
    split at h
    case isTrue  => cases h
    case isFalse hdomain =>
      split at h
      case isTrue  => cases h
      case isFalse hlive =>
        obtain ⟨k, r, hk, hr, _⟩ := anyRow_iff.mp (not_not.mp hsome)
        refine ⟨⟨k, r, hk, hr⟩, fun k r hk hr => ?_, fun k r hk hr hs => ?_⟩
        · by_contra hne
          exact hdomain ⟨k, r, hk, hr, hne⟩
        · by_contra hlt
          exact hlive ⟨k, r, hk, hr, hs, not_le.mp hlt⟩

theorem Owned.collecting_mark {plan : Plan} (h : Owned c plan d) : (c.mark d).collecting d := by
  obtain ⟨k, r, hk, hr⟩ := h.row
  refine ⟨k, _, lookup_mark.mpr ⟨r, hk, rfl⟩, ?_, ?_⟩ <;> simp [hr]

theorem Owned.uniform_mark {plan : Plan} (h : Owned c plan d) (hc : c.Uniform) : (c.mark d).Uniform := by
  intro k r k' r' hk hk' hd hr
  obtain ⟨r₀, hk₀, rfl⟩ := lookup_mark.mp hk
  obtain ⟨r₀', hk₀', rfl⟩ := lookup_mark.mp hk'
  have hsame : r₀.objectDigest = r₀'.objectDigest := by
    split at hd <;> split at hd <;> simpa using hd
  by_cases hdigest : r₀.objectDigest = d
  case pos =>
    have hdigest' := hsame.symm.trans hdigest
    rw [if_pos hdigest']
    exact ⟨rfl, (h.domain k' r₀' hk₀' hdigest').trans (h.domain k r₀ hk₀ hdigest).symm⟩
  case neg =>
    rw [if_neg hdigest] at hr
    rw [if_neg (hsame ▸ hdigest)]
    exact hc k r₀ k' r₀' hk₀ hk₀' hsame hr

theorem reserve_ok {corpus uploadId digest attempt : String} {expiresAt : ℤ}
    (h : c.reserve corpus uploadId digest attempt expiresAt = .ok c') : c' = c ∨
      ¬c.collecting digest ∧ c.reservations.lookup (corpus, uploadId) = none ∧ c' = { c with
        reservations := c.reservations.insert (corpus, uploadId) ⟨digest, attempt, expiresAt, .reserved⟩ } := by
  unfold Catalog.reserve at h
  extract_lets row at h
  split at h
  case isTrue  => cases h
  case isFalse =>
    split at h
    case isTrue             => cases h
    case isFalse hcollecting =>
      split at h
      case h_1 hn    => exact .inr ⟨hcollecting, hn, (Except.ok.inj h).symm⟩
      case h_2 found =>
        split at h
        case isTrue  => exact .inl (Except.ok.inj h).symm
        case isFalse => cases h

theorem release_ok {corpus uploadId : String} {entry : ArchiveEntry} (h : c.release corpus uploadId entry = .ok c') :
    ∃ r, c.reservations.lookup (corpus, uploadId) = some r ∧ r.state = .reserved ∧ r.objectDigest = entry.objectDigest ∧
      c' = { c with reservations := c.reservations.erase (corpus, uploadId) } := by
  unfold Catalog.release at h
  split at h
  case isTrue  => cases h
  case isFalse =>
    split at h
    case h_1         => cases h
    case h_2 r hr =>
      split at h
      case isTrue         => cases h
      case isFalse hstate =>
        split at h
        case isTrue          => cases h
        case isFalse hdigest => exact ⟨r, hr, not_not.mp hstate, not_not.mp hdigest, (Except.ok.inj h).symm⟩

theorem archive_ok {entry : ArchiveEntry} {inserted : Bool} (h : c.archive entry = .ok (inserted, c')) : c' = c ∨
    c.manifest.lookup (entry.scope, entry.byteStart) = none ∧ c' = { c with
      manifest := c.manifest.insert (entry.scope, entry.byteStart) (entry.byteEnd, entry.objectDigest) } := by
  unfold Catalog.archive at h
  split at h
  case isTrue  => cases h
  case isFalse =>
    split at h
    case h_1 found _ =>
      split at h
      case isTrue  => cases h
      case isFalse => exact .inl (Prod.ext_iff.mp (Except.ok.inj h)).right.symm
    case h_2 hn =>
      split at h
      case isTrue  => cases h
      case isFalse => exact .inr ⟨hn, (Prod.ext_iff.mp (Except.ok.inj h)).right.symm⟩

end Catalog

section Process

variable {d : String}

namespace CollectStage

-- A collection that has claimed the digest and has still to unlink its object.
def holds (digest : String) : CollectStage → Prop
  | .upload found name _ .recheck _ => name = digest ∧ digest ∈ found.files
  | .upload _ name _ .unlink _      => name = digest
  | _                               => False

instance (digest : String) : DecidablePred (holds digest)
  | .upload _ _ _ .check _                           => .isFalse id
  | .upload _ _ _ .claim _                           => .isFalse id
  | .upload _ _ _ .recheck _                         => inferInstanceAs (Decidable (_ ∧ _))
  | .upload _ _ _ .unlink _                          => inferInstanceAs (Decidable (_ = _))
  | .upload _ _ _ (.drop _) _                        => .isFalse id
  | .walk | .archived .. | .reserved ..              => .isFalse id
  | .references .. | .names .. | .done | .dead       => .isFalse id

end CollectStage

namespace Process

def collect? : Process → Option Collect
  | .commit _  => none
  | .collect p => some p

-- A commit between its release and its archive row.
def pending (digest : String) : Process → Prop
  | .commit p  => (p.stage = .verify ∨ p.stage = .archive) ∧ p.entry.objectDigest = digest
  | .collect _ => False

def holds (digest : String) : Process → Prop
  | .commit _  => False
  | .collect p => p.stage.holds digest

instance (digest : String) : DecidablePred (pending digest)
  | .commit _  => inferInstanceAs (Decidable (_ ∧ _))
  | .collect _ => .isFalse id

instance (digest : String) : DecidablePred (holds digest)
  | .commit _  => .isFalse id
  | .collect p => inferInstanceAs (Decidable (p.stage.holds digest))

end Process

namespace State

variable (s : State)

def collection (id : ℕ) : Option Collect :=
  (s.processes.lookup id).bind Process.collect?

def committing (digest : String) : Prop :=
  s.processes.Exists fun _ p => p.pending digest

def heldByOther (id : ℕ) (digest : String) : Prop :=
  s.processes.Exists fun other p => other ≠ id ∧ p.holds digest

instance (digest : String) : Decidable (s.committing digest) :=
  inferInstanceAs (Decidable (s.processes.Exists _))

instance (id : ℕ) (digest : String) : Decidable (s.heldByOther id digest) :=
  inferInstanceAs (Decidable (s.processes.Exists _))

end State

-- A claim lands while no commit of the digest is between its release and its archive row, and a collection takes rows
-- of a digest away while no other has claimed it and has still to unlink its object.
def Collect.Apart (s : State) (id : ℕ) (answer : Answer) (p : Collect) : CollectStage → Prop
  | .names found (name :: _)          => name ∈ found.pinned → p.plan.destructive = true → s.catalog.collecting name →
    ¬s.heldByOther id name
  | .upload _ name _ .claim _         =>
    if s.catalog.referenced answer.references name then s.catalog.collecting name → ¬s.heldByOther id name
    else s.catalog.owner p.plan name = none → ¬s.committing name
  | .upload _ name _ (.drop _) _      => ¬s.heldByOther id name
  | _                                 => True

def Apart (s : State) : Event → Prop
  | .turn id answer => ∀ p ∈ s.collection id, p.Apart s id answer p.stage
  | _               => True

instance (s : State) (id : ℕ) (answer : Answer) (p : Collect) : DecidablePred (p.Apart s id answer)
  | .names _ []                                => .isTrue trivial
  | .names _ (_ :: _)                          => inferInstanceAs (Decidable (_ → _))
  | .upload _ _ _ .check _                     => .isTrue trivial
  | .upload _ _ _ .claim _                     => inferInstanceAs (Decidable (ite _ _ _))
  | .upload _ _ _ .recheck _                   => .isTrue trivial
  | .upload _ _ _ .unlink _                    => .isTrue trivial
  | .upload _ _ _ (.drop _) _                  => inferInstanceAs (Decidable (¬_))
  | .walk | .archived .. | .reserved ..        => .isTrue trivial
  | .references .. | .done | .dead             => .isTrue trivial

instance (s : State) : DecidablePred (Apart s)
  | .turn _ _                                       => inferInstanceAs (Decidable (∀ p ∈ _, _))
  | .put _ | .register _ | .reserve .. | .commit .. => .isTrue trivial
  | .collect .. | .crash _                          => .isTrue trivial

end Process

section Safe

variable {sha256 : Bytes → String} {s : State} {e : Event} {id : ℕ} {p p' : Process} {d : String} {answer : Answer}

def Process.plan? (p : Process) : Option Plan :=
  p.collect?.map Collect.plan

-- A reservation that some collection found expired past its grace.
def State.Expired (s : State) (r : Reservation) : Prop :=
  s.processes.Exists fun _ p => ∃ plan ∈ p.plan?, r.expiresAt + plan.grace ≤ plan.now

instance (s : State) (r : Reservation) : Decidable (s.Expired r) :=
  inferInstanceAs (Decidable (s.processes.Exists _))

structure Safe (sha256 : Bytes → String) (s : State) : Prop where
  intact   : ∀ d data, s.files.lookup d = some data → sha256 data = d
  archived : ∀ d, s.catalog.archived d → (s.files.lookup d).isSome
  uniform  : s.catalog.Uniform
  expired  : ∀ k r, s.catalog.reservations.lookup k = some r → r.state = .collecting → s.Expired r
  verified : ∀ id p, s.processes.lookup id = some (.commit p) → p.stage = .archive →
    (s.files.lookup p.entry.objectDigest).isSome
  held     : ∀ id p d, s.processes.lookup id = some p → p.holds d →
    s.catalog.collecting d ∧ ¬s.catalog.archived d ∧ ¬s.committing d

theorem Safe.init : Safe sha256 init where
  intact   := by simp [Collection.init]
  archived := by
    rintro d ⟨k, row, hk, _⟩
    simp [Collection.init, Catalog.empty] at hk
  uniform  := by
    intro k r k' r' hk
    simp [Collection.init, Catalog.empty] at hk
  expired  := by simp [Collection.init, Catalog.empty]
  verified := by simp [Collection.init]
  held     := by simp [Collection.init]

theorem not_holds_of_pending (h : p.pending d) : ¬p.holds d := by
  cases p with
  | commit p  => exact id
  | collect p => exact absurd h id

-- A process moves on, or starts. It has claimed no digest that a commit is about to archive.
theorem Safe.move (hs : Safe sha256 s) (hplan : ∀ p, s.processes.lookup id = some p → p'.plan? = p.plan?)
    (hpending : ∀ d, p'.pending d → s.committing d ∨ ∀ id p, s.processes.lookup id = some p → ¬p.holds d)
    (hholds : ∀ d, p'.holds d → s.catalog.collecting d ∧ ¬s.catalog.archived d ∧ ¬s.committing d)
    (hverified : ∀ p, p' = .commit p → p.stage = .archive → (s.files.lookup p.entry.objectDigest).isSome) :
    Safe sha256 { s with processes := s.processes.insert id p' } where
  intact   := hs.intact
  archived := hs.archived
  uniform  := hs.uniform
  expired  := by
    intro k r hk hr
    obtain ⟨other, p, hp, plan, hplan', hle⟩ := hs.expired k r hk hr
    by_cases hid : other = id
    case pos =>
      subst hid
      exact ⟨other, p', Finmap.lookup_insert _, plan, (hplan p hp).trans hplan', hle⟩
    case neg => exact ⟨other, p, (Finmap.lookup_insert_of_ne _ hid).trans hp, plan, hplan', hle⟩
  verified := by
    intro other p hp hstage
    by_cases hid : other = id
    case pos =>
      subst hid
      exact hverified p (Option.some.inj ((Finmap.lookup_insert _).symm.trans hp)) hstage
    case neg => exact hs.verified other p ((Finmap.lookup_insert_of_ne _ hid).symm.trans hp) hstage
  held     := by
    have hcommitting (d : String) (h : { s with processes := s.processes.insert id p' : State }.committing d) :
        s.committing d ∨ p'.pending d := by
      obtain ⟨other, q, hq, hpend⟩ := h
      by_cases hid : other = id
      case pos =>
        subst hid
        obtain rfl := Option.some.inj ((Finmap.lookup_insert _).symm.trans hq)
        exact .inr hpend
      case neg => exact .inl ⟨other, q, (Finmap.lookup_insert_of_ne _ hid).symm.trans hq, hpend⟩
    intro other q d hq hh
    by_cases hid : other = id
    case pos =>
      subst hid
      obtain rfl := Option.some.inj ((Finmap.lookup_insert _).symm.trans hq)
      obtain ⟨hc, ha, hn⟩ := hholds d hh
      exact ⟨hc, ha, fun h => (hcommitting d h).elim hn fun hpend => not_holds_of_pending hpend hh⟩
    case neg =>
      have hq' := (Finmap.lookup_insert_of_ne _ hid).symm.trans hq
      obtain ⟨hc, ha, hn⟩ := hs.held other q d hq' hh
      refine ⟨hc, ha, fun h => (hcommitting d h).elim hn fun hpend => ?_⟩
      exact (hpending d hpend).elim hn fun hnone => hnone other q hq' hh

-- A process that is not about to archive and has claimed nothing may always take the place of its former self.
theorem Safe.moved (hs : Safe sha256 s) (hplan : ∀ p, s.processes.lookup id = some p → p'.plan? = p.plan?)
    (hpending : ∀ d, ¬p'.pending d) (hholds : ∀ d, ¬p'.holds d) :
    Safe sha256 { s with processes := s.processes.insert id p' } := by
  refine hs.move hplan (fun d h => absurd h (hpending d)) (fun d h => absurd h (hholds d)) ?_
  rintro p rfl hstage
  exact absurd ⟨.inr hstage, rfl⟩ (hpending p.entry.objectDigest)

-- The reservations change, but every claimed digest is still being collected.
theorem Safe.rows {c : Catalog} (hs : Safe sha256 s) (hm : c.manifest = s.catalog.manifest) (hu : c.Uniform)
    (he : ∀ k r, c.reservations.lookup k = some r → r.state = .collecting → s.Expired r)
    (hh : ∀ id p d, s.processes.lookup id = some p → p.holds d → c.collecting d) :
    Safe sha256 { s with catalog := c } := by
  have harchived (d : String) : c.archived d ↔ s.catalog.archived d := by rw [Catalog.archived, hm, Catalog.archived]
  exact {
    intact   := hs.intact
    archived := fun d h => hs.archived d ((harchived d).mp h)
    uniform  := hu
    expired  := he
    verified := hs.verified
    held     := by
      intro id p d hp h
      obtain ⟨_, ha, hn⟩ := hs.held id p d hp h
      exact ⟨hh id p d hp h, fun h => ha ((harchived d).mp h), hn⟩ }

-- Rows go, and none of a claimed digest.
theorem Safe.fewer {c : Catalog} (hs : Safe sha256 s) (hm : c.manifest = s.catalog.manifest)
    (hold : ∀ k r, c.reservations.lookup k = some r → s.catalog.reservations.lookup k = some r)
    (hh : ∀ id p d, s.processes.lookup id = some p → p.holds d → s.catalog.collecting d → c.collecting d) :
    Safe sha256 { s with catalog := c } :=
  hs.rows hm (Uniform.of_subset hs.uniform hold) (fun k r hk => hs.expired k r (hold k r hk))
    fun id p d hp h => hh id p d hp h (hs.held id p d hp h).left

theorem Safe.settle (hs : Safe sha256 s)
    (hn : s.catalog.collecting d → ∀ id p, s.processes.lookup id = some p → ¬p.holds d) :
    Safe sha256 { s with catalog := s.catalog.settle d } := by
  refine hs.fewer rfl (fun k r hk => (lookup_settle.mp hk).left) fun id p e hp h hc => ?_
  refine collecting_settle hc ?_
  rintro rfl
  exact hn hc id p hp h

theorem Safe.dropDigest (hs : Safe sha256 s) (hn : ∀ id p, s.processes.lookup id = some p → ¬p.holds d) :
    Safe sha256 { s with catalog := s.catalog.dropDigest d } := by
  refine hs.fewer rfl (fun k r hk => (lookup_dropDigest.mp hk).left) fun id p e hp h hc => ?_
  refine collecting_dropDigest hc ?_
  rintro rfl
  exact hn id p hp h

theorem Safe.mark {plan : Plan} (hs : Safe sha256 s) (hp : s.processes.lookup id = some p) (hplan : p.plan? = some plan)
    (ho : Owned s.catalog plan d) : Safe sha256 { s with catalog := s.catalog.mark d } := by
  refine hs.rows rfl (ho.uniform_mark hs.uniform) (fun k r hk hr => ?_) fun id p e hp h =>
    collecting_mark (hs.held id p e hp h).left
  obtain ⟨r₀, hk₀, rfl⟩ := lookup_mark.mp hk
  by_cases hd : r₀.objectDigest = d
  case neg =>
    rw [if_neg hd] at hr ⊢
    exact hs.expired k r₀ hk₀ hr
  case pos =>
    rw [if_pos hd]
    cases hstate : r₀.state with
    | collecting => exact hs.expired k r₀ hk₀ hstate
    | reserved   => exact ⟨id, p, hp, plan, hplan, ho.expired k r₀ hk₀ hd hstate⟩

-- The object of a claimed digest goes.
theorem Safe.erase (hs : Safe sha256 s) (hp : s.processes.lookup id = some p) (hh : p.holds d) :
    Safe sha256 { s with files := s.files.erase d } := by
  obtain ⟨_, ha, hn⟩ := hs.held id p d hp hh
  have hkeeps {e : String} (hne : e ≠ d) (h : (s.files.lookup e).isSome) : ((s.files.erase d).lookup e).isSome := by
    rwa [Finmap.lookup_erase_ne hne]
  exact {
    intact   := fun e data h => hs.intact e data (Finmap.lookup_erase_eq_some.mp h).right
    archived := by
      intro e h
      refine hkeeps ?_ (hs.archived e h)
      rintro rfl
      exact ha h
    uniform  := hs.uniform
    expired  := hs.expired
    verified := by
      intro other q hq hstage
      refine hkeeps ?_ (hs.verified other q hq hstage)
      rintro rfl
      exact hn ⟨other, _, hq, .inr hstage, rfl⟩
    held     := hs.held }

theorem Safe.archive {q : Commit} (hs : Safe sha256 s) (hp : s.processes.lookup id = some (.commit q))
    (hstage : q.stage = .archive) : Safe sha256 { s with catalog := { s.catalog with
      manifest := s.catalog.manifest.insert (q.entry.scope, q.entry.byteStart) (q.entry.byteEnd, q.entry.objectDigest) } } := by
  have hcases {e : String} {row : ℤ × String} {key : Scope × ℤ} (hd : row.2 = e)
      (hk : (s.catalog.manifest.insert (q.entry.scope, q.entry.byteStart)
        (q.entry.byteEnd, q.entry.objectDigest)).lookup key = some row) :
      e = q.entry.objectDigest ∨ s.catalog.archived e := by
    by_cases hkey : key = (q.entry.scope, q.entry.byteStart)
    case pos =>
      subst hkey
      obtain rfl := Option.some.inj ((Finmap.lookup_insert _).symm.trans hk)
      exact .inl hd.symm
    case neg => exact .inr ⟨key, row, (Finmap.lookup_insert_of_ne _ hkey).symm.trans hk, hd⟩
  exact {
    intact   := hs.intact
    archived := by
      rintro e ⟨key, row, hk, hd⟩
      obtain rfl | h := hcases hd hk
      · exact hs.verified id q hp hstage
      · exact hs.archived e h
    uniform  := hs.uniform
    expired  := hs.expired
    verified := hs.verified
    held     := by
      intro other p e hq hh
      obtain ⟨hc, ha, hn⟩ := hs.held other p e hq hh
      refine ⟨hc, ?_, hn⟩
      rintro ⟨key, row, hk, hd⟩
      obtain rfl | h := hcases hd hk
      · exact hn ⟨id, _, hp, .inr hstage, rfl⟩
      · exact ha h }

theorem verified_ok {files : Dict String Bytes} {entry : ArchiveEntry} {data : Bytes}
    (h : verified sha256 files entry = .ok data) : (files.lookup entry.objectDigest).isSome := by
  unfold verified at h
  split at h
  case isTrue  => cases h
  case isFalse =>
    split at h
    case h_1    => cases h
    case h_2 hl => simp [hl]

theorem Safe.commit_turn {q : Commit} (hs : Safe sha256 s) (hp : s.processes.lookup id = some (.commit q)) :
    Safe sha256 ⟨s.files, (q.turn sha256 s.files s.catalog).2,
      s.processes.insert id (.commit (q.turn sha256 s.files s.catalog).1)⟩ := by
  have hplan {q' : Commit} (p : Process) (h : s.processes.lookup id = some p) : (Process.commit q').plan? = p.plan? := by
    obtain rfl := Option.some.inj (hp.symm.trans h)
    rfl
  have hrefused (error : Refusal) :
      Safe sha256 { s with processes := s.processes.insert id (.commit (q.refuse error)) } := by
    refine hs.moved hplan (fun d h => ?_) fun d h => h
    simp [Process.pending, Commit.refuse] at h
  unfold Commit.turn
  split
  case h_1 hstage =>
    split
    case h_1 error _ => exact hrefused error
    case h_2 c hr =>
      obtain ⟨r, hk, hstate, hdigest, rfl⟩ := release_ok hr
      have hfree (d : String) (hd : q.entry.objectDigest = d) (other : ℕ) (p : Process)
          (ho : s.processes.lookup other = some p) : ¬p.holds d := by
        intro hh
        obtain ⟨k', r', hk', hd', hr'⟩ := (hs.held other p d ho hh).left
        have hc := (hs.uniform _ _ _ _ hk' hk (hd'.trans (hdigest.trans hd).symm) hr').left
        rw [hstate] at hc
        cases hc
      have herased : Safe sha256 { s with catalog := { s.catalog with
          reservations := s.catalog.reservations.erase (q.corpus, q.uploadId) } } := by
        refine hs.fewer rfl (fun k r h => (Finmap.lookup_erase_eq_some.mp h).right) fun other p d ho hh hc => ?_
        obtain ⟨k', r', hk', hd', hr'⟩ := hc
        refine ⟨k', r', Finmap.lookup_erase_eq_some.mpr ⟨?_, hk'⟩, hd', hr'⟩
        rintro rfl
        obtain rfl := Option.some.inj (hk.symm.trans hk')
        rw [hstate] at hr'
        cases hr'
      exact herased.move hplan (fun d h => .inr (hfree d h.right)) (fun d h => h.elim) fun p he h => by cases he; cases h
  case h_2 hstage =>
    split
    case h_1 error _ => exact hrefused error
    case h_2 data hv =>
      refine hs.move hplan (fun d h => .inl ⟨id, _, hp, .inl hstage, h.right⟩) (fun d h => h.elim) fun p he _ => ?_
      cases he
      exact verified_ok hv
  case h_3 hstage =>
    split
    case h_1 error _ => exact hrefused error
    case h_2 inserted c hr =>
      obtain rfl | ⟨_, rfl⟩ := archive_ok hr
      · exact hs.moved hplan (fun d h => by simp [Process.pending] at h) fun d h => h
      · exact (hs.archive hp hstage).moved hplan (fun d h => by simp [Process.pending] at h) fun d h => h
  case h_4 hr hv ha =>
    exact hs.move hplan (fun d h => .inl ⟨id, _, hp, h⟩) (fun d h => h.elim) fun p he h => by cases he; exact absurd h ha

theorem not_held (h : ¬s.heldByOther id d) (hp : s.processes.lookup id = some p) (hn : ¬p.holds d)
    (other : ℕ) (q : Process) (hq : s.processes.lookup other = some q) : ¬q.holds d := by
  by_cases hid : other = id
  case pos =>
    subst hid
    obtain rfl := Option.some.inj (hp.symm.trans hq)
    exact hn
  case neg => exact fun hh => h ⟨other, q, hq, hid, hh⟩

-- A collection moves on without having claimed a digest.
theorem Safe.moved_collect {q q' : Collect} (hs : Safe sha256 s) (hp : s.processes.lookup id = some (.collect q))
    (hplan : q'.plan = q.plan) (hholds : ∀ d, ¬q'.stage.holds d) :
    Safe sha256 { s with processes := s.processes.insert id (.collect q') } := by
  refine hs.moved (fun p h => ?_) (fun d h => h) hholds
  obtain rfl := Option.some.inj (hp.symm.trans h)
  exact congrArg some hplan

theorem Safe.move_collect {q q' : Collect} (hs : Safe sha256 s) (hp : s.processes.lookup id = some (.collect q))
    (hplan : q'.plan = q.plan)
    (hholds : ∀ d, q'.stage.holds d → s.catalog.collecting d ∧ ¬s.catalog.archived d ∧ ¬s.committing d) :
    Safe sha256 { s with processes := s.processes.insert id (.collect q') } := by
  refine hs.move (fun p h => ?_) (fun d h => h.elim) hholds fun p he => by cases he
  obtain rfl := Option.some.inj (hp.symm.trans h)
  exact congrArg some hplan

theorem Safe.next {q : Collect} {found : Found} {name : String} {rest : List String} (hs : Safe sha256 s)
    (hp : s.processes.lookup id = some (.collect q)) (hstage : q.stage = .names found (name :: rest))
    (ha : name ∈ found.pinned → q.plan.destructive = true → s.catalog.collecting name → ¬s.heldByOther id name) :
    Safe sha256 ⟨s.files, (q.next s.catalog found name rest).2,
      s.processes.insert id (.collect (q.next s.catalog found name rest).1)⟩ := by
  unfold Collect.next
  split
  case isTrue hpinned =>
    split
    case isTrue h =>
      have hfree := not_held (ha hpinned h.left h.right) hp (by simp [Process.holds, hstage, CollectStage.holds])
      exact (hs.settle fun _ => hfree).moved_collect hp rfl fun d h => h
    case isFalse => exact hs.moved_collect hp rfl fun d h => h
  case isFalse =>
    split
    case h_1 => exact hs.moved_collect hp rfl fun d h => h
    case h_2 => exact hs.moved_collect hp rfl fun d h => h

theorem check_plan {q : Collect} {files : Dict String Bytes} {found : Found} {name : String} {rest : List String} :
    (q.check sha256 files found name rest).plan = q.plan ∧ ∀ d, ¬(q.check sha256 files found name rest).stage.holds d := by
  unfold Collect.check
  extract_lets claims
  have hclaims (size : ℕ) : (claims size).plan = q.plan ∧ ∀ d, ¬(claims size).stage.holds d := by
    unfold claims
    split <;> exact ⟨rfl, fun d h => h⟩
  split
  case isTrue  => exact hclaims 0
  case isFalse =>
    split
    case h_1      => exact ⟨rfl, fun d h => h⟩
    case h_2 data _ =>
      split
      case isTrue  => exact ⟨rfl, fun d h => h⟩
      case isFalse => exact hclaims data.length

theorem Safe.claim {q : Collect} {references : Finset String} {found : Found} {name : String} {size : ℕ} {rest : List String}
    (hs : Safe sha256 s) (hp : s.processes.lookup id = some (.collect q))
    (hstage : q.stage = .upload found name size .claim rest)
    (ha : if s.catalog.referenced references name then s.catalog.collecting name → ¬s.heldByOther id name
      else s.catalog.owner q.plan name = none → ¬s.committing name) :
    let next := q.upload sha256 s.files s.catalog references found name size rest .claim
    Safe sha256 ⟨next.2.1, next.2.2, s.processes.insert id (.collect next.1)⟩ := by
  simp only [Collect.upload, Catalog.claim]
  split at ha
  case isTrue href =>
    rw [if_pos href]
    have hself : ¬Process.holds name (.collect q) := by simp [Process.holds, hstage, CollectStage.holds]
    exact (hs.settle fun hc => not_held (ha hc) hp hself).moved_collect hp rfl fun d h => h
  case isFalse href =>
    rw [if_neg href]
    cases ho : s.catalog.owner q.plan name with
    | some reason => exact hs.moved_collect hp rfl fun d h => h
    | none        =>
      have howned := owned_of_owner ho
      refine (hs.mark hp rfl howned).move_collect hp rfl fun d h => ?_
      obtain ⟨rfl, _⟩ := h
      exact ⟨howned.collecting_mark, fun harchived => href (.inl harchived), ha ho⟩

theorem Safe.upload {q : Collect} {found : Found} {name : String} {size : ℕ} {stage : UploadStage} {rest : List String}
    (hs : Safe sha256 s) (hp : s.processes.lookup id = some (.collect q))
    (hstage : q.stage = .upload found name size stage rest)
    (ha : q.Apart s id answer (.upload found name size stage rest)) :
    let next := q.upload sha256 s.files s.catalog answer.references found name size rest stage
    Safe sha256 ⟨next.2.1, next.2.2, s.processes.insert id (.collect next.1)⟩ := by
  cases stage with
  | check        => exact hs.moved_collect hp check_plan.left check_plan.right
  | claim        => exact hs.claim hp hstage ha
  | recheck      =>
    refine hs.move_collect hp rfl fun d h => ?_
    refine hs.held id _ d hp ?_
    simp only [Collect.upload, Collect.goto] at h
    split at h
    case isTrue  => exact h.elim
    case isFalse =>
      split at h
      case isTrue hfile =>
        obtain rfl : name = d := h
        simpa [Process.holds, hstage, CollectStage.holds] using hfile
      case isFalse => exact h.elim
  | unlink       =>
    have hself : Process.holds name (.collect q) := by simp [Process.holds, hstage, CollectStage.holds]
    simp only [Collect.upload]
    split
    case isTrue  => exact (hs.erase hp hself).moved_collect hp rfl fun d h => h
    case isFalse => exact hs.moved_collect hp rfl fun d h => h
  | drop rebound =>
    have hself : ¬Process.holds name (.collect q) := by simp [Process.holds, hstage, CollectStage.holds]
    have hs := hs.dropDigest (not_held ha hp hself)
    cases rebound with
    | true  => exact hs.moved_collect hp rfl fun d h => h
    | false => exact hs.moved_collect hp rfl fun d h => h

theorem Safe.collect_turn {q : Collect} (hs : Safe sha256 s) (hp : s.processes.lookup id = some (.collect q))
    (ha : q.Apart s id answer q.stage) :
    let next := q.turn sha256 answer s.files s.catalog
    Safe sha256 ⟨next.2.1, next.2.2, s.processes.insert id (.collect next.1)⟩ := by
  have hends (h : ∀ d, ¬q.stage.holds d) : Safe sha256 { s with processes := s.processes.insert id (.collect q) } :=
    hs.moved_collect hp rfl h
  unfold Collect.turn
  cases hstage : q.stage with
  | names found rest                     =>
    cases rest with
    | nil            => exact hs.moved_collect hp rfl fun d h => h
    | cons name rest =>
      rw [hstage] at ha
      exact hs.next hp hstage ha
  | upload found name size stage rest    =>
    rw [hstage] at ha
    exact hs.upload hp hstage ha
  | walk                                 => exact hs.moved_collect hp rfl fun d h => h
  | archived                             => exact hs.moved_collect hp rfl fun d h => h
  | reserved                             => exact hs.moved_collect hp rfl fun d h => h
  | references                           => exact hs.moved_collect hp rfl fun d h => h
  | done                                 => exact hends (by simp [hstage, CollectStage.holds])
  | dead                                 => exact hends (by simp [hstage, CollectStage.holds])

theorem Safe.put {data : Bytes} (hs : Safe sha256 s) :
    Safe sha256 { s with files := s.files.insert (sha256 data) data } := by
  have hmore {d : String} (h : (s.files.lookup d).isSome) : ((s.files.insert (sha256 data) data).lookup d).isSome := by
    by_cases hd : d = sha256 data
    case pos =>
      subst hd
      rw [Finmap.lookup_insert]
      rfl
    case neg => rwa [Finmap.lookup_insert_of_ne _ hd]
  exact {
    intact   := by
      intro d found h
      by_cases hd : d = sha256 data
      case pos =>
        subst hd
        rw [Option.some.inj ((Finmap.lookup_insert _).symm.trans h)]
      case neg => exact hs.intact d found ((Finmap.lookup_insert_of_ne _ hd).symm.trans h)
    archived := fun d h => hmore (hs.archived d h)
    uniform  := hs.uniform
    expired  := hs.expired
    verified := fun id p hp hstage => hmore (hs.verified id p hp hstage)
    held     := hs.held }

theorem Safe.reserve {c : Catalog} {corpus uploadId digest attempt : String} {expiresAt : ℤ} (hs : Safe sha256 s)
    (h : s.catalog.reserve corpus uploadId digest attempt expiresAt = .ok c) : Safe sha256 { s with catalog := c } := by
  obtain rfl | ⟨hcollecting, hn, rfl⟩ := reserve_ok h
  case inl => exact hs
  case inr =>
    refine hs.rows rfl (hs.uniform.insert hn hcollecting rfl) (fun k r hk hr => ?_) fun id p d hp hh => ?_
    · by_cases hkey : k = (corpus, uploadId)
      case pos =>
        subst hkey
        obtain rfl := Option.some.inj ((Finmap.lookup_insert _).symm.trans hk)
        cases hr
      case neg => exact hs.expired k r ((Finmap.lookup_insert_of_ne _ hkey).symm.trans hk) hr
    · obtain ⟨k, r, hk, hd, hr⟩ := (hs.held id p d hp hh).left
      refine ⟨k, r, (Finmap.lookup_insert_of_ne _ ?_).trans hk, hd, hr⟩
      rintro rfl
      cases hn.symm.trans hk

theorem Safe.start (hs : Safe sha256 s) (hpending : ∀ d, ¬p.pending d) (hholds : ∀ d, ¬p.holds d) :
    Safe sha256 (s.start id p) := by
  unfold State.start
  split
  case isTrue     => exact hs
  case isFalse hn =>
    refine hs.moved (fun q hq => ?_) hpending hholds
    rw [Finmap.lookup_eq_none_of_notMem_keys hn] at hq
    cases hq

theorem Safe.step (hs : Safe sha256 s) (ha : Apart s e) : Safe sha256 (step sha256 s e) := by
  unfold Collection.step
  split
  case h_1 data =>
    split
    case isTrue  => exact hs.put
    case isFalse => exact hs
  case h_2 scope => exact hs.rows rfl hs.uniform hs.expired fun id p d hp hh => (hs.held id p d hp hh).left
  case h_3 corpus uploadId digest attempt expiresAt =>
    split
    case h_1      => exact hs
    case h_2 c hr => exact hs.reserve hr
  case h_4 => exact hs.start (fun d h => by simp [Process.pending] at h) fun d h => h
  case h_5 => exact hs.start (fun d h => h) fun d h => h
  case h_6 id answer =>
    split
    case h_1      => exact hs
    case h_2 q hp => exact hs.commit_turn hp
    case h_3 q hp => exact hs.collect_turn hp (ha q (by simp [State.collection, hp, Process.collect?]))
  case h_7 id =>
    split
    case h_1      => exact hs
    case h_2 p hp =>
      refine hs.moved (fun q hq => ?_) (fun d h => ?_) fun d h => ?_
      · obtain rfl := Option.some.inj (hp.symm.trans hq)
        cases p <;> rfl
      · cases p <;> simp [Process.crash, Process.pending] at h
      · cases p <;> simp [Process.crash, Process.holds, CollectStage.holds] at h

end Safe

end Collection
