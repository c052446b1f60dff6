import Agentihooks.Collection.System

-- The ranges of a manifest are disjoint, and what is read of them is what the source holds there.

namespace Collection

open Ingest (Scope)

variable {c : Catalog} {scope : Scope} {entry row : ArchiveEntry} {calls : List ArchiveEntry}

section Manifest

-- Two rows of one source share no byte.
def Separate (a b : ArchiveEntry) : Prop :=
  ¬ (a.byteStart < b.byteEnd ∧ b.byteStart < a.byteEnd)

theorem mem_entries : row ∈ c.entries scope ↔
    row.scope = scope ∧ c.manifest.lookup (scope, row.byteStart) = some (row.byteEnd, row.objectDigest) := by
  rw [Catalog.entries, List.mem_filterMap]
  constructor
  case mp =>
    rintro ⟨start, _, hr⟩
    obtain ⟨found, hl, rfl⟩ := Option.map_eq_some_iff.mp hr
    exact ⟨rfl, hl⟩
  case mpr =>
    rintro ⟨rfl, hl⟩
    refine ⟨row.byteStart, ?_, by rw [hl]; rfl⟩
    rw [Finset.mem_sort, Catalog.starts, Finset.mem_image]
    refine ⟨(row.scope, row.byteStart), ?_, rfl⟩
    rw [Finset.mem_filter, Finmap.mem_keys, ← Finmap.lookup_isSome, hl]
    exact ⟨rfl, rfl⟩

theorem entries_increasing : (c.entries scope).Pairwise fun a b => a.byteStart < b.byteStart := by
  rw [Catalog.entries, List.pairwise_filterMap]
  refine (Finset.sortedLT_sort (c.starts scope)).pairwise.imp fun hlt x hx y hy => ?_
  obtain ⟨_, _, rfl⟩ := Option.map_eq_some_iff.mp hx
  obtain ⟨_, _, rfl⟩ := Option.map_eq_some_iff.mp hy
  exact hlt

-- Each row of a source is apart from the others.
def Laid (c : Catalog) : Prop :=
  ∀ scope, ∀ a ∈ c.entries scope, ∀ b ∈ c.entries scope, a ≠ b → Separate a b

-- A call adds its row or changes nothing.
theorem archiveCall_cases : c.archiveCall entry = c ∨
    c.manifest.lookup (entry.scope, entry.byteStart) = none ∧ (∀ a ∈ c.entries entry.scope, Separate a entry) ∧
      ∀ scope a, a ∈ (c.archiveCall entry).entries scope ↔ a ∈ c.entries scope ∨ a = entry ∧ entry.scope = scope := by
  rw [Catalog.archiveCall, Catalog.archive]
  by_cases hr : entry.scope ∉ c.sources
  case pos => exact .inl (by rw [if_pos hr])
  rw [if_neg hr]
  cases hl : c.manifest.lookup (entry.scope, entry.byteStart) with
  | some found =>
    by_cases hf : found ≠ (entry.byteEnd, entry.objectDigest)
    case pos => exact .inl (by simp [hf])
    case neg => exact .inl (by simp [hf])
  | none =>
    by_cases ho : c.manifest.Exists fun key row => key.1 = entry.scope ∧ key.2 < entry.byteEnd ∧ entry.byteStart < row.1
    case pos => exact .inl (by simp [ho])
    case neg =>
      refine .inr ⟨rfl, fun a ha hab => ho ?_, fun scope a => ?_⟩
      case refine_1 =>
        obtain ⟨hs, hrow⟩ := mem_entries.mp ha
        exact ⟨(entry.scope, a.byteStart), (a.byteEnd, a.objectDigest), hrow, rfl, hab⟩
      case refine_2 =>
        simp only [ho, if_false, mem_entries]
        by_cases hk : (scope, a.byteStart) = (entry.scope, entry.byteStart)
        case pos =>
          rw [hk, Finmap.lookup_insert, hl]
          obtain ⟨s, start, stop, digest⟩ := a
          obtain ⟨s', start', stop', digest'⟩ := entry
          obtain ⟨rfl, rfl⟩ := Prod.mk.inj hk
          simp only [Option.some.injEq, Prod.mk.injEq, ArchiveEntry.mk.injEq]
          grind
        case neg =>
          rw [Finmap.lookup_insert_of_ne _ hk, or_iff_left]
          rintro ⟨rfl, hs⟩
          exact hk (by rw [hs])

theorem laid_archiveCall (h : Laid c) : Laid (c.archiveCall entry) := by
  obtain he | ⟨_, hapart, hmem⟩ := @archiveCall_cases c entry
  case inl => rwa [he]
  case inr =>
    intro scope a hma b hmb hne
    rw [hmem] at hma hmb
    obtain ha | ⟨rfl, hs⟩ := hma <;> obtain hb | ⟨rfl, hs'⟩ := hmb
    · exact h scope a ha b hb hne
    · exact hapart a (hs' ▸ ha)
    · exact fun hab => hapart b (hs ▸ hb) hab.symm
    · exact absurd rfl hne

theorem mem_archiveCall (h : row ∈ c.entries scope) : row ∈ (c.archiveCall entry).entries scope := by
  obtain he | ⟨_, _, hmem⟩ := @archiveCall_cases c entry
  case inl => rwa [he]
  case inr => exact (hmem scope row).mpr (.inl h)

theorem mem_run (h : row ∈ c.entries scope) : row ∈ (Run.run Catalog.archiveCall c calls).entries scope := by
  induction calls generalizing c
  case nil     => exact h
  case cons hi => exact hi (mem_archiveCall h)

theorem eq_of_byteStart {row' : ArchiveEntry} (h : row ∈ c.entries scope) (h' : row' ∈ c.entries scope)
    (hs : row'.byteStart = row.byteStart) : row' = row := by
  obtain ⟨he, hl⟩ := mem_entries.mp h
  obtain ⟨he', hl'⟩ := mem_entries.mp h'
  rw [hs, hl, Option.some.injEq, Prod.mk.injEq] at hl'
  rw [ArchiveEntry.mk.injEq]
  exact ⟨he'.trans he.symm, hs, hl'.left.symm, hl'.right.symm⟩

theorem laid_run (h : Laid c) : Laid (Run.run Catalog.archiveCall c calls) := by
  induction calls generalizing c
  case nil     => exact h
  case cons hi => exact hi (laid_archiveCall h)

theorem laid_of_empty (h : c.manifest = ∅) : Laid c := by
  intro scope a ha
  rw [mem_entries, h] at ha
  cases ha.right

theorem Laid.pairwise (h : Laid c) : (c.entries scope).Pairwise Separate :=
  entries_increasing.imp_of_mem fun ha hb hlt => h scope _ ha _ hb fun he => by
    rw [he] at hlt
    exact absurd hlt (lt_irrefl _)

end Manifest

section Slice

variable {sha256 : Bytes → String} {files : Dict String Bytes} {source : ℤ → UInt8} {cursor start mid stop : ℤ}
variable {rows : List ArchiveEntry} {data : Bytes}

-- The bytes of a source in a range.
def span (source : ℤ → UInt8) (start stop : ℤ) : Bytes :=
  (List.range (stop - start).toNat).map fun i : ℕ => source (start + (i : ℤ))

theorem length_span : (span source start stop).length = (stop - start).toNat := by
  simp [span]

theorem span_of_le (h : stop ≤ start) : span source start stop = [] := by
  rw [span, Int.toNat_of_nonpos (by omega), List.range_zero, List.map_nil]

theorem span_append (hm : start ≤ mid) (hs : mid ≤ stop) :
    span source start mid ++ span source mid stop = span source start stop := by
  have hn : (stop - start).toNat = (mid - start).toNat + (stop - mid).toNat := by omega
  rw [span, span, span, hn, List.range_add, List.map_append, List.map_map]
  congr 1
  refine List.map_congr_left fun i _ => congrArg source ?_
  simp
  omega

theorem cut_span (hc : start ≤ cursor) (hm : cursor ≤ mid) (hs : mid ≤ stop) :
    cut (span source start stop) (cursor - start) (mid - start) = span source cursor mid := by
  rw [cut, ← span_append (hc.trans hm) hs, List.take_left' length_span, ← span_append hc hm, List.drop_left' length_span]

-- The object of a row is there and is what the row says.
def Whole (sha256 : Bytes → String) (files : Dict String Bytes) (row : ArchiveEntry) : Prop :=
  ∃ data, verified sha256 files row = .ok data

-- Every byte of the range is in an intact object.
def Covered (sha256 : Bytes → String) (files : Dict String Bytes) (rows : List ArchiveEntry) (start stop : ℤ) : Prop :=
  ∀ b, start ≤ b → b < stop → ∃ row ∈ rows, row.byteStart ≤ b ∧ b < row.byteEnd ∧ Whole sha256 files row

-- What an intact object holds.
def Faithful (sha256 : Bytes → String) (files : Dict String Bytes) (source : ℤ → UInt8) (rows : List ArchiveEntry) : Prop :=
  ∀ row ∈ rows, ∀ data, verified sha256 files row = .ok data → data = span source row.byteStart row.byteEnd

-- A row that ends before the range has no part in it.
theorem covered_cons_of_le (h : row.byteEnd ≤ cursor) :
    Covered sha256 files (row :: rows) cursor stop ↔ Covered sha256 files rows cursor stop := by
  refine forall_congr' fun b => forall_congr' fun hb => forall_congr' fun _ => ?_
  rw [List.exists_mem_cons_iff, or_iff_right]
  rintro ⟨_, hlt, _⟩
  omega

-- A row at the start of the range has the bytes up to its end alone.
theorem covered_cons (hs : ∀ r ∈ rows, row.byteStart < r.byteStart) (ha : ∀ r ∈ rows, Separate row r)
    (hr : row.byteStart ≤ cursor) (hb : cursor < row.byteEnd) (hc : cursor < stop) :
    Covered sha256 files (row :: rows) cursor stop ↔
      Whole sha256 files row ∧ Covered sha256 files rows (min stop row.byteEnd) stop := by
  constructor
  case mp =>
    intro h
    constructor
    case left =>
      obtain ⟨r, hm, hle, hlt, hi⟩ := h cursor le_rfl hc
      obtain rfl | hm := List.mem_cons.mp hm
      · exact hi
      · exact absurd ⟨by have := hs r hm; omega, by omega⟩ (ha r hm)
    case right =>
      intro b hle hlt
      obtain ⟨r, hm, hrb, hbr, hi⟩ := h b (by omega) hlt
      obtain rfl | hm := List.mem_cons.mp hm
      · omega
      · exact ⟨r, hm, hrb, hbr, hi⟩
  case mpr =>
    rintro ⟨hi, h⟩ b hle hlt
    by_cases hin : b < row.byteEnd
    case pos => exact ⟨row, List.mem_cons_self, by omega, hin, hi⟩
    case neg =>
      obtain ⟨r, hm, hrb, hbr, hir⟩ := h b (by omega) hlt
      exact ⟨r, List.mem_cons_of_mem _ hm, hrb, hbr, hir⟩

theorem sliceFrom_eq (hs : rows.Pairwise fun a b => a.byteStart < b.byteStart) (ha : rows.Pairwise Separate)
    (hf : Faithful sha256 files source rows) (hc : cursor ≤ stop) :
    (Covered sha256 files rows cursor stop → sliceFrom sha256 files stop cursor rows = .ok (span source cursor stop)) ∧
      (¬ Covered sha256 files rows cursor stop → ∃ error, sliceFrom sha256 files stop cursor rows = .error error) := by
  induction rows generalizing cursor
  case nil =>
    rw [sliceFrom]
    by_cases hlt : cursor < stop
    case pos =>
      rw [if_pos hlt]
      refine ⟨fun h => ?_, fun _ => ⟨_, rfl⟩⟩
      obtain ⟨row, hr, _⟩ := h cursor le_rfl hlt
      cases hr
    case neg =>
      rw [if_neg hlt, span_of_le (not_lt.mp hlt)]
      exact ⟨fun _ => rfl, fun h => absurd (fun b hb hb' => absurd (hb.trans_lt hb') hlt) h⟩
  case cons row rows hi =>
    rw [List.pairwise_cons] at hs ha
    have hi {cursor : ℤ} := @hi cursor hs.right ha.right fun row hr => hf row (List.mem_cons_of_mem _ hr)
    rw [sliceFrom]
    by_cases hend : stop ≤ cursor
    case pos =>
      rw [if_pos hend, span_of_le hend]
      exact ⟨fun _ => rfl, fun h => absurd (fun b hb hb' => absurd (hb.trans_lt hb') hend.not_gt) h⟩
    rw [if_neg hend]
    by_cases hbefore : row.byteEnd ≤ cursor
    case pos =>
      rw [if_pos hbefore, covered_cons_of_le hbefore]
      exact hi hc
    rw [if_neg hbefore]
    by_cases hgap : cursor < row.byteStart
    case pos =>
      rw [if_pos hgap]
      refine ⟨fun h => ?_, fun _ => ⟨_, rfl⟩⟩
      obtain ⟨r, hm, hle, _⟩ := h cursor le_rfl (by omega)
      obtain rfl | hm := List.mem_cons.mp hm
      · omega
      · have := hs.left r hm
        omega
    case neg =>
      rw [if_neg hgap, covered_cons hs.left ha.left (by omega) (by omega) (by omega)]
      have hi := @hi (min stop row.byteEnd) (by omega)
      cases hv : verified sha256 files row with
      | error error =>
        refine ⟨?_, fun _ => ⟨_, rfl⟩⟩
        rintro ⟨⟨data, hd⟩, _⟩
        rw [hv] at hd
        cases hd
      | ok data =>
        have hd := hf row List.mem_cons_self data hv
        constructor
        case left =>
          rintro ⟨_, h⟩
          have := hi.left h
          simp only [Except.mapError, bind, Except.bind, this]
          rw [hd, cut_span (by omega) (by omega) (by omega), span_append (by omega) (by omega)]
        case right =>
          intro h
          obtain ⟨error, he⟩ := hi.right fun hcov => h ⟨⟨data, hv⟩, hcov⟩
          exact ⟨error, by simp only [Except.mapError, bind, Except.bind, he]⟩

theorem slice_ok_iff (hs : rows.Pairwise fun a b => a.byteStart < b.byteStart) (ha : rows.Pairwise Separate)
    (hf : Faithful sha256 files source rows) : slice sha256 files rows start stop = .ok data ↔
      0 ≤ start ∧ start ≤ stop ∧ Covered sha256 files rows start stop ∧ data = span source start stop := by
  rw [slice]
  by_cases hr : 0 ≤ start ∧ start ≤ stop
  case neg =>
    rw [if_pos hr]
    exact ⟨nofun, fun h => absurd ⟨h.left, h.right.left⟩ hr⟩
  case pos =>
    rw [if_neg (not_not.mpr hr)]
    have heq := sliceFrom_eq hs ha hf hr.right
    constructor
    case mp =>
      intro h
      by_cases hcov : Covered sha256 files rows start stop
      case pos =>
        rw [heq.left hcov, Except.ok.injEq] at h
        exact ⟨hr.left, hr.right, hcov, h.symm⟩
      case neg =>
        obtain ⟨error, he⟩ := heq.right hcov
        rw [he] at h
        cases h
    case mpr =>
      rintro ⟨_, _, hcov, rfl⟩
      exact heq.left hcov

end Slice

section Source

variable {sha256 : Bytes → String} {files : Dict String Bytes} {source : ℤ → UInt8}

-- What holds of a source's manifest, and of what is read through it.
structure Archived (sha256 : Bytes → String) (files : Dict String Bytes) (source : ℤ → UInt8) (scope : Scope)
    (c : Catalog) : Prop where
  increasing : (c.entries scope).Pairwise fun a b => a.byteStart < b.byteStart
  disjoint   : (c.entries scope).Pairwise fun a b =>
    (∀ byte, ¬ ((a.byteStart ≤ byte ∧ byte < a.byteEnd) ∧ b.byteStart ≤ byte ∧ byte < b.byteEnd)) ∧
      (b.byteStart ≤ b.byteEnd → a.byteEnd ≤ b.byteStart)
  unchanged  : ∀ later, ∀ row ∈ c.entries scope, ∀ row' ∈ (Run.run Catalog.archiveCall c later).entries scope,
    row ∈ (Run.run Catalog.archiveCall c later).entries scope ∧ (row'.byteStart = row.byteStart → row' = row)
  read       : ∀ grant session start stop data, sourceRange sha256 files c grant session scope start stop = .ok data ↔
    readable grant scope.accessDomain session = .ok () ∧ 0 ≤ start ∧ start ≤ stop ∧
      Covered sha256 files (c.entries scope) start stop ∧ data = span source start stop

theorem sourceRange_ok_iff {grant : Grant} {session : Option SessionRow} {start stop : ℤ} {data : Bytes} :
    sourceRange sha256 files c grant session scope start stop = .ok data ↔
      readable grant scope.accessDomain session = .ok () ∧ slice sha256 files (c.entries scope) start stop = .ok data := by
  rw [sourceRange]
  cases readable grant scope.accessDomain session with
  | error error => exact ⟨nofun, fun h => nomatch h.left⟩
  | ok          => exact ⟨fun h => ⟨rfl, h⟩, And.right⟩

theorem archived_run (hm : c.manifest = ∅)
    (hf : Faithful sha256 files source ((Run.run Catalog.archiveCall c calls).entries scope)) :
    Archived sha256 files source scope (Run.run Catalog.archiveCall c calls) where
  increasing := entries_increasing
  disjoint   :=
    (laid_run (laid_of_empty hm)).pairwise.and entries_increasing |>.imp fun h =>
      ⟨fun byte hb => h.left ⟨by omega, by omega⟩, fun hle => not_lt.mp fun hlt => h.left ⟨by omega, hlt⟩⟩
  unchanged later row hr row' hr' := ⟨mem_run hr, eq_of_byteStart (mem_run hr) hr'⟩
  read grant session start stop data := by
    rw [sourceRange_ok_iff, slice_ok_iff entries_increasing (laid_run (laid_of_empty hm)).pairwise hf]

-- The digest of the one object that is there, and of all others.
def objectOf (data : Bytes) : String :=
  if data = [1, 2] then "bbbbbbbbbbbbbbbbbbbbbbbbbbbbbbbbbbbbbbbbbbbbbbbbbbbbbbbbbbbbbbbb"
  else "cccccccccccccccccccccccccccccccccccccccccccccccccccccccccccccccc"

def stored : Dict String Bytes :=
  Finmap.singleton (objectOf [1, 2]) [1, 2]

def half : Scope :=
  ⟨"corpus", "session", "1"⟩

-- Rows that touch, and one that overlaps both.
def archiving : List ArchiveEntry :=
  [⟨half, 2, 4, objectOf []⟩, ⟨half, 0, 2, objectOf [1, 2]⟩, ⟨half, 1, 3, objectOf []⟩]

theorem archived_run_archiving : Archived objectOf stored (fun byte => if byte = 0 then 1 else 2) half
    (Run.run Catalog.archiveCall ⟨∅, ∅, {half}⟩ archiving) := by
  refine archived_run rfl ?_
  have hm : (Run.run Catalog.archiveCall ⟨∅, ∅, {half}⟩ archiving).manifest =
      ((∅ : Dict (Scope × ℤ) (ℤ × String)).insert (half, 2) (4, objectOf [])).insert (half, 0) (2, objectOf [1, 2]) := by
    decide +kernel
  have hread : verified objectOf stored ⟨half, 0, 2, objectOf [1, 2]⟩ = .ok [1, 2] := by decide +kernel
  have hgone : verified objectOf stored ⟨half, 2, 4, objectOf []⟩ = .error .missing := by decide +kernel
  intro row hr data hd
  obtain ⟨s, start, stop, digest⟩ := row
  obtain ⟨rfl, hl⟩ := mem_entries.mp hr
  rw [hm] at hl
  by_cases h0 : start = 0
  case pos =>
    subst h0
    rw [Finmap.lookup_insert, Option.some.injEq, Prod.mk.injEq] at hl
    obtain ⟨rfl, rfl⟩ := hl
    rw [hread, Except.ok.injEq] at hd
    rw [← hd]
    decide
  case neg =>
    rw [Finmap.lookup_insert_of_ne _ (by simpa using h0)] at hl
    by_cases h2 : start = 2
    case pos =>
      subst h2
      rw [Finmap.lookup_insert, Option.some.injEq, Prod.mk.injEq] at hl
      obtain ⟨rfl, rfl⟩ := hl
      rw [hgone] at hd
      cases hd
    case neg =>
      rw [Finmap.lookup_insert_of_ne _ (by simpa using h2)] at hl
      cases hl

end Source

end Collection
