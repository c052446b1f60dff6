import Mathlib.Data.List.TakeWhile
import Agentihooks.Collector.Poll

namespace Collector

open Importer (Bytes Record)

section Lines

variable {line a b data : Bytes}

-- Nothing, or what ends with a newline.
def Whole (a : Bytes) : Prop :=
  a = [] ∨ ∃ c, a = c ++ [10]

theorem splitLines_cons {c : UInt8} {rest : Bytes} (hr : c ≠ 13) (hn : c ≠ 10) :
    splitLines line (c :: rest) = splitLines (line ++ [c]) rest := by
  rw [splitLines]
  · exact fun _ hc => absurd hc hr
  · exact hr
  · exact hn

theorem splitLines_newline : splitLines line (a ++ 10 :: b) = splitLines line (a ++ [10]) ++ splitLines [] b := by
  fun_induction splitLines line a
  case case1 => simp [splitLines]
  case case2 => simp [splitLines]
  case case3 hi => simpa [splitLines] using hi
  case case4 rest hr hi =>
    cases rest
    case nil => simp [splitLines]
    case cons c rest =>
      have hc : c ≠ 10 := fun hc => hr rest (by rw [hc])
      simpa [splitLines, hc] using hi
  case case5 hi => simpa [splitLines] using hi
  case case6 hc hn hi =>
    rw [List.cons_append, List.cons_append, splitLines_cons hc hn, splitLines_cons hc hn]
    exact hi

theorem splitLines_append (h : Whole a) : splitLines [] (a ++ b) = splitLines [] a ++ splitLines [] b := by
  obtain rfl | ⟨c, rfl⟩ := h
  case inl => rfl
  case inr => rw [List.append_assoc, List.singleton_append, splitLines_newline]

theorem whole_completeOf : Whole (completeOf data) := by
  unfold completeOf
  cases h : data.reverse.dropWhile (· ≠ 10)
  case nil => exact .inl rfl
  case cons c rest =>
    have hc : c = 10 := by
      have hn := List.head?_dropWhile_not (fun x : UInt8 => decide (x ≠ 10)) data.reverse
      rw [h, List.head?_cons] at hn
      simpa using hn
    exact .inr ⟨rest.reverse, by rw [hc, List.reverse_cons]⟩

theorem completeOf_prefix : completeOf data <+: data := by
  have h : data.reverse.dropWhile (· ≠ 10) <:+ data.reverse := List.dropWhile_suffix _
  rw [completeOf, ← List.reverse_suffix, List.reverse_reverse]
  exact h

-- No newline comes after the whole lines.
theorem not_mem_drop_completeOf : 10 ∉ data.drop (completeOf data).length := by
  have hd : data = completeOf data ++ (data.reverse.takeWhile (· ≠ 10)).reverse := by
    rw [completeOf, ← List.reverse_append, List.takeWhile_append_dropWhile, List.reverse_reverse]
  intro hm
  rw [hd, List.drop_left' (by rw [← hd]), List.mem_reverse] at hm
  exact absurd (List.mem_takeWhile_imp hm) (by simp)

theorem Whole.append (ha : Whole a) (hb : Whole b) : Whole (a ++ b) := by
  obtain rfl | ⟨c, rfl⟩ := hb
  case inl => rwa [List.append_nil]
  case inr => exact .inr ⟨a ++ c, (List.append_assoc _ _ _).symm⟩

end Lines

section Read

variable {setting : Setting} {fmt : Format} {a b : Bytes} {es es' : List JsonValue} {s s' : Bool}
  {records records' : List Record}

theorem normalizeEntries_append : normalizeEntries fmt (es ++ es') s =
    (normalizeEntries fmt es s).bind fun x => (normalizeEntries fmt es' x.2).map fun y => (x.1 ++ y.1, y.2) := by
  induction es generalizing s
  case nil => simp [normalizeEntries]
  case cons e es hi =>
    cases e
    case object fields =>
      simp only [List.cons_append, normalizeEntries, hi]
      cases decode fmt fields s
      case none => rfl
      case some x =>
        simp only [Option.bind_eq_bind, Option.bind_some]
        cases normalizeEntries fmt es x.2
        case none => rfl
        case some y => 
          simp only [Option.bind_some]
          cases normalizeEntries fmt es' y.2 <;> simp
    all_goals simpa [normalizeEntries] using hi

theorem Setting.entriesOf_append {ls ls' : List Bytes} : setting.entriesOf (ls ++ ls') =
    (setting.entriesOf ls).bind fun x => (setting.entriesOf ls').map (x ++ ·) := by
  induction ls
  case nil => simp [entriesOf]
  case cons line ls hi =>
    simp only [List.cons_append, entriesOf, hi]
    cases setting.loads line
    case value v =>
      cases setting.entriesOf ls <;> cases setting.entriesOf ls' <;> rfl
    case undecodable => rfl
    case raises => rfl

theorem Setting.entries_append (h : Whole a) : setting.entries (a ++ b) =
    (setting.entries a).bind fun x => (setting.entries b).map (x ++ ·) := by
  rw [entries, splitLines_append h, entriesOf_append]
  rfl

-- The records of a file of whole lines that is read at once.
def Setting.readAll (setting : Setting) (fmt : Format) (file : Bytes) : Option (List Record × Bool) :=
  (setting.entries file).bind fun entries => normalizeEntries fmt entries false

theorem Setting.readAll_nil : setting.readAll fmt [] = some ([], false) :=
  rfl

theorem Setting.readAll_append (h : Whole a) (hr : setting.readAll fmt a = some (records, s)) :
    setting.readAll fmt (a ++ b) = (setting.entries b).bind fun es =>
      (normalizeEntries fmt es s).map fun y => (records ++ y.1, y.2) := by
  obtain ⟨es, he, hn⟩ := Option.bind_eq_some_iff.mp hr
  rw [readAll, entries_append h, he, Option.bind_some]
  cases setting.entries b
  case none => rfl
  case some es' => simp [normalizeEntries_append, hn]

-- What is read of whole lines is the start of what is read of more.
theorem Setting.readAll_prefix (h : Whole a) (hr : setting.readAll fmt (a ++ b) = some (records, s)) :
    ∃ records' s', setting.readAll fmt a = some (records', s') ∧ records' <+: records := by
  obtain ⟨es, he, hn⟩ := Option.bind_eq_some_iff.mp hr
  rw [entries_append h] at he
  obtain ⟨x, hx, hm⟩ := Option.bind_eq_some_iff.mp he
  obtain ⟨y, -, rfl⟩ := Option.map_eq_some_iff.mp hm
  rw [normalizeEntries_append] at hn
  obtain ⟨z, hz, hm⟩ := Option.bind_eq_some_iff.mp hn
  obtain ⟨z', -, he⟩ := Option.map_eq_some_iff.mp hm
  cases he
  exact ⟨z.1, z.2, by rw [readAll, hx, Option.bind_some, hz], List.prefix_append _ _⟩

end Read

-- The batches follow on each other, from one offset to the other.
def Tiles : ℕ → List Batch → ℕ → Prop
  | start, [], stop            => start = stop
  | start, batch :: rest, stop => batch.start = start ∧ start ≤ batch.cursor.offset ∧ Tiles batch.cursor.offset rest stop

theorem tiles_concat {start stop : ℕ} {batches : List Batch} {batch : Batch} :
    Tiles start (batches ++ [batch]) stop ↔
      Tiles start batches batch.start ∧ batch.start ≤ batch.cursor.offset ∧ batch.cursor.offset = stop := by
  induction batches generalizing start
  case nil => simp only [List.nil_append, Tiles]; grind
  case cons b batches hi => simp only [List.cons_append, Tiles, hi]; grind

section Cursors

variable {setting : Setting} {file more : Bytes} {batches : List Batch} {batch : Batch} {c : Cursor}

-- The records that the batches give.
def recordsOf (batches : List Batch) : List Record :=
  batches.flatMap fun batch => batch.records

theorem recordsOf_concat : recordsOf (batches ++ [batch]) = recordsOf batches ++ batch.records := by
  simp [recordsOf]

-- Whole lines and the records of a file of them, in the format that is known from its first line on.
def Setting.Reads (setting : Setting) (file : Bytes) (fmt : Option Format) (turn : Bool) (records : List Record) : Prop :=
  Whole file ∧ (file = [] ∧ fmt = none ∧ turn = false ∧ records = [] ∨
    ∃ f, fmt = some f ∧ setting.readAll f file = some (records, turn))

-- A cursor after some batches of a file that has at least what they have read.
structure Kept (setting : Setting) (file : Bytes) (batches : List Batch) (c : Cursor) : Prop where
  revision : c.revision = batches.length
  fresh    : c.revision = 0 → c = .start
  inside   : c.offset ≤ file.length
  same     : 0 < c.revision → (setting.device, setting.inode) = (c.device, c.inode) ∧
    setting.anchorOf file c.offset = c.anchor
  reads    : setting.Reads (file.take c.offset) c.fmt (c.turn.getD false) (recordsOf batches)
  tiles    : Tiles 0 batches c.offset
  replays  : c.replays = 0

-- A batch that reads on from a cursor, and the cursor that it is committed with.
structure Next (setting : Setting) (file : Bytes) (batches : List Batch) (c : Cursor) (batch : Batch) : Prop where
  before   : Kept setting file batches c
  start    : batch.start = c.offset
  fmt      : c.fmt ≠ none → batch.cursor.fmt = c.fmt
  revision : batch.cursor.revision = c.revision
  after    : Kept setting file (batches ++ [batch]) { batch.cursor with revision := batch.cursor.revision + 1 }

theorem Kept.start : Kept setting file [] .start where
  revision := rfl
  fresh _  := rfl
  inside   := Nat.zero_le _
  same h   := absurd h (Nat.lt_irrefl _)
  reads    := ⟨.inl rfl, .inl ⟨rfl, rfl, rfl, rfl⟩⟩
  tiles    := rfl
  replays  := rfl

theorem anchorOf_append {offset : ℕ} (h : offset ≤ file.length) :
    setting.anchorOf (file ++ more) offset = setting.anchorOf file offset := by
  unfold Setting.anchorOf
  rw [List.drop_append_of_le_length (by omega), List.take_append_of_le_length (by rw [List.length_drop]; omega)]

theorem Kept.append (h : Kept setting file batches c) : Kept setting (file ++ more) batches c where
  revision := h.revision
  fresh    := h.fresh
  inside   := h.inside.trans (by rw [List.length_append]; exact Nat.le_add_right _ _)
  same hr  := (h.same hr).imp_right fun ha => (anchorOf_append h.inside).trans ha
  reads    := by
    rw [List.take_append_of_le_length h.inside]
    exact h.reads
  tiles    := h.tiles
  replays  := h.replays

theorem Next.append (h : Next setting file batches c batch) : Next setting (file ++ more) batches c batch :=
  ⟨h.before.append, h.start, h.fmt, h.revision, h.after.append⟩

-- A cursor is found to be of the file, or it is the one of a source that has none.
theorem Kept.read (h : Kept setting file batches c) : ∃ same, setting.read file c =
    ⟨same, c.offset, file.drop c.offset, setting.anchorOf file (c.offset + (completeOf (file.drop c.offset)).length)⟩ ∧
    (same = false → c = .start) := by
  by_cases hs : (setting.device, setting.inode) = (c.device, c.inode) ∧ c.offset ≤ file.length ∧
      setting.anchorOf file c.offset = c.anchor
  case pos => exact ⟨true, by simp [Setting.read, hs], fun hf => by cases hf⟩
  case neg =>
    have hc : c = .start := by
      by_contra hc
      have hr : 0 < c.revision := Nat.pos_of_ne_zero fun hz => hc (h.fresh hz)
      exact hs ⟨(h.same hr).left, h.inside, (h.same hr).right⟩
    refine ⟨false, ?_, fun _ => hc⟩
    have ho : c.offset = 0 := by rw [hc]; rfl
    rw [Setting.read, decide_eq_false hs]
    simp [ho]

theorem take_completeOf {offset : ℕ} : file.take (offset + (completeOf (file.drop offset)).length) =
    file.take offset ++ completeOf (file.drop offset) := by
  rw [List.take_add, ← List.prefix_iff_eq_take.mp completeOf_prefix]

-- What was read before a cursor, in the format that it has or in any that is found for it.
theorem Kept.readAll {fmt : Format} (h : Kept setting file batches c) (hf : c.fmt ≠ none → c.fmt = some fmt) :
    setting.readAll fmt (file.take c.offset) = some (recordsOf batches, c.turn.getD false) := by
  obtain ⟨-, ⟨he, -, ht, hr⟩ | ⟨f, hc, hr⟩⟩ := h.reads
  case inl => rw [he, ht, hr, Setting.readAll_nil]
  case inr =>
    cases hc.symm.trans (hf (by rw [hc]; exact Option.some_ne_none f))
    exact hr

-- What `read_batch` finds of the format, the records and the turn.
theorem batch_cases {later data : Bytes} {same : Bool} {anchor : String} (hs : same = false → c = .start)
    (hb : setting.batch later c ⟨same, c.offset, data, anchor⟩ = some batch) :
    ∃ fmt records turn, batch = ⟨records,
      { c with
        device := setting.device, inode := setting.inode, offset := c.offset + (completeOf data).length
        anchor := anchor, fmt := fmt, turn := some turn },
      c.offset, c.offset + data.length, data.length - (completeOf data).length, false⟩ ∧
    (completeOf data = [] ∧ fmt = c.fmt ∧ records = [] ∧ turn = c.turn.getD false ∨
      ∃ f es, fmt = some f ∧ (c.fmt ≠ none → c.fmt = some f) ∧ setting.entries (completeOf data) = some es ∧
        normalizeEntries f es (c.turn.getD false) = some (records, turn)) := by
  have hk : (if same then c.fmt else none) = c.fmt := by
    cases same
    case false => rw [hs rfl]; rfl
    case true  => rfl
  have ht : (if same then c.turn else none) = c.turn := by
    cases same
    case false => rw [hs rfl]; rfl
    case true  => rfl
  have hr : (! same && 0 < c.revision) = false := by
    cases same
    case false => rw [hs rfl]; rfl
    case true  => rfl
  simp only [Setting.batch, hk, ht, hr] at hb
  obtain ⟨fmt, hf, hm⟩ := Option.bind_eq_some_iff.mp hb
  obtain ⟨⟨records, turn⟩, hx, rfl⟩ := Option.map_eq_some_iff.mp hm
  refine ⟨fmt, records, turn, rfl, ?_⟩
  unfold Setting.format at hf
  split_ifs at hf with hn
  case pos =>
    obtain ⟨f, -, rfl⟩ := Option.map_eq_some_iff.mp hf
    rw [Setting.records, if_neg hn.right] at hx
    obtain ⟨es, he, hx⟩ := Option.bind_eq_some_iff.mp hx
    exact .inr ⟨f, es, rfl, fun hc => absurd hn.left hc, he, hx⟩
  case neg =>
    cases hf
    by_cases hc : completeOf data = []
    case pos =>
      have hx' : (([], c.turn.getD false) : List Record × Bool) = (records, turn) := by
        cases hfmt : c.fmt <;> simpa [Setting.records, hc, hfmt] using hx
      cases hx'
      exact .inl ⟨hc, rfl, rfl, rfl⟩
    case neg =>
      cases hfmt : c.fmt
      case none => exact absurd ⟨hfmt, hc⟩ hn
      case some f =>
        rw [hfmt, Setting.records, if_neg hc] at hx
        obtain ⟨es, he, hx⟩ := Option.bind_eq_some_iff.mp hx
        exact .inr ⟨f, es, rfl, fun _ => rfl, he, hx⟩

-- A batch reads on from its cursor, whatever has come to the file since the reading.
theorem Kept.next {later : Bytes} (h : Kept setting file batches c)
    (hb : setting.batch later c (setting.read file c) = some batch) : Next setting file batches c batch := by
  obtain ⟨same, hr, hs⟩ := h.read
  rw [hr] at hb
  obtain ⟨fmt, records, turn, rfl, hc⟩ := batch_cases hs hb
  have hle : c.offset + (completeOf (file.drop c.offset)).length ≤ file.length := by
    have hp : (completeOf (file.drop c.offset)).length ≤ (file.drop c.offset).length := completeOf_prefix.length_le
    rw [List.length_drop] at hp
    have := h.inside
    omega
  refine ⟨h, rfl, ?_, rfl, ⟨?_, fun hz => absurd hz (Nat.succ_ne_zero _), hle, fun _ => ⟨rfl, rfl⟩, ?_, ?_, h.replays⟩⟩
  case refine_1 =>
    intro hn
    obtain ⟨-, hf, -⟩ | ⟨f, es, hf, hk, -⟩ := hc
    case inl => exact hf
    case inr => exact hf.trans (hk hn).symm
  case refine_2 => simpa using h.revision
  case refine_3 =>
    obtain ⟨hw, hreads⟩ := h.reads
    rw [recordsOf_concat, take_completeOf]
    refine ⟨hw.append whole_completeOf, ?_⟩
    obtain ⟨he, rfl, rfl, rfl⟩ | ⟨f, es, rfl, hk, he, hn⟩ := hc
    case inl => simpa [he] using hreads
    case inr =>
      refine .inr ⟨f, rfl, ?_⟩
      rw [Setting.readAll_append hw (h.readAll hk), he, Option.bind_some, hn]
      rfl
  case refine_4 => exact tiles_concat.mpr ⟨h.tiles, Nat.le_add_right _ _, rfl⟩

end Cursors

section Runs

variable {setting : Setting} {w : World} {poll : ℕ} {ok : Bool} {position : Position} {batch : Batch} {c : Cursor}

-- A batch that a poll has made after some of the batches that have been committed.
def World.Made (w : World) (setting : Setting) (c : Cursor) (batch : Batch) : Prop :=
  ∃ k ≤ w.committed.length, Next setting w.file (w.committed.take k) c batch

def World.Placed (w : World) (setting : Setting) : Position → Prop
  | .loaded c         => ∃ k ≤ w.committed.length, Kept setting w.file (w.committed.take k) c
  | .reading c r      => ∃ k ≤ w.committed.length, ∃ file, file <+: w.file ∧
    Kept setting file (w.committed.take k) c ∧ r = setting.read file c
  | .ready c batch    => w.Made setting c batch
  | .committing batch => (∃ c, w.Made setting c batch) ∧ (batch.records = [] ∨ batch ∈ w.accepted)

structure Invariant (setting : Setting) (w : World) : Prop where
  stored   : Kept setting w.file w.committed w.load
  polls    : ∀ poll position, w.polls poll = some position → w.Placed setting position
  accepted : ∀ batch ∈ w.accepted, ∃ c, w.Made setting c batch
  handed   : ∀ batch ∈ w.committed, batch.records = [] ∨ batch ∈ w.accepted

-- What the others leave of the world of a poll.
structure Grown (w w' : World) : Prop where
  file      : w.file <+: w'.file
  committed : w.committed <+: w'.committed
  accepted  : w.accepted ⊆ w'.accepted

variable {w' : World}

theorem Kept.mono {file file' : Bytes} {batches : List Batch} (h : Kept setting file batches c) (hf : file <+: file') :
    Kept setting file' batches c := by
  obtain ⟨more, rfl⟩ := hf
  exact h.append

theorem take_committed {k : ℕ} (h : Grown w w') (hk : k ≤ w.committed.length) :
    w'.committed.take k = w.committed.take k := by
  obtain ⟨more, hm⟩ := h.committed
  rw [← hm, List.take_append_of_le_length hk]

theorem World.Made.mono (h : w.Made setting c batch) (hg : Grown w w') : w'.Made setting c batch := by
  obtain ⟨k, hk, hn⟩ := h
  obtain ⟨more, hm⟩ := hg.file
  refine ⟨k, hk.trans hg.committed.length_le, ?_⟩
  rw [take_committed hg hk, ← hm]
  exact hn.append

theorem World.Placed.mono (h : w.Placed setting position) (hg : Grown w w') : w'.Placed setting position := by
  cases position
  case loaded c =>
    obtain ⟨k, hk, hc⟩ := h
    refine ⟨k, hk.trans hg.committed.length_le, ?_⟩
    rw [take_committed hg hk]
    exact hc.mono hg.file
  case reading c r =>
    obtain ⟨k, hk, file, hf, hc, hr⟩ := h
    refine ⟨k, hk.trans hg.committed.length_le, file, hf.trans hg.file, ?_, hr⟩
    rwa [take_committed hg hk]
  case ready c batch => exact World.Made.mono h hg
  case committing batch =>
    obtain ⟨⟨c, hm⟩, ha⟩ := h
    exact ⟨⟨c, hm.mono hg⟩, ha.imp_right fun ha => hg.accepted ha⟩

theorem Grown.refl : Grown w w :=
  ⟨List.prefix_rfl, List.prefix_rfl, List.Subset.refl _⟩

-- One poll moves, and the others stay where they are.
theorem Invariant.of_poll (poll : ℕ) (h : Invariant setting w) (hg : Grown w w')
    (hs : Kept setting w'.file w'.committed w'.load) (hp : ∀ p ≠ poll, w'.polls p = w.polls p)
    (hq : ∀ position, w'.polls poll = some position → w'.Placed setting position)
    (ha : ∀ batch ∈ w'.accepted, ∃ c, w'.Made setting c batch)
    (hh : ∀ batch ∈ w'.committed, batch.records = [] ∨ batch ∈ w'.accepted) : Invariant setting w' where
  stored   := hs
  polls p position hl := by
    by_cases he : p = poll
    case pos => exact hq position (he ▸ hl)
    case neg => exact (h.polls p position ((hp p he).symm.trans hl)).mono hg
  accepted := ha
  handed   := hh

theorem polls_move {next : Option Position} : (w.move poll next).polls poll = next :=
  Function.update_self _ _ _

theorem Invariant.move {next : Option Position} (h : Invariant setting w)
    (hn : ∀ position, next = some position → w.Placed setting position) : Invariant setting (w.move poll next) := by
  have hg : Grown w (w.move poll next) := ⟨List.prefix_rfl, List.prefix_rfl, List.Subset.refl _⟩
  refine h.of_poll poll hg h.stored (fun p hp => Function.update_of_ne hp _ _) ?_ ?_ h.handed
  case refine_1 =>
    intro position hp
    rw [polls_move] at hp
    exact (hn position hp).mono hg
  case refine_2 =>
    intro batch hm
    obtain ⟨c, hc⟩ := h.accepted batch hm
    exact ⟨c, hc.mono hg⟩

theorem Invariant.leave (h : Invariant setting w) : Invariant setting (w.move poll none) := by
  refine h.move fun position hn => ?_
  cases hn

theorem Invariant.reading {r : Reading} (h : Invariant setting w) (hp : w.Placed setting (.reading c r)) :
    Invariant setting (w.proceed setting poll ok (.reading c r)) := by
  obtain ⟨k, hk, file, hf, hc, rfl⟩ := hp
  refine h.move fun position hm => ?_
  obtain ⟨batch, hb, rfl⟩ := Option.map_eq_some_iff.mp hm
  obtain ⟨more, hm⟩ := hf
  exact ⟨k, hk, hm ▸ (hc.next hb).append⟩

theorem Invariant.ready (h : Invariant setting w) (hp : w.Made setting c batch) :
    Invariant setting (w.proceed setting poll ok (.ready c batch)) := by
  rw [World.proceed]
  split_ifs with hc hr ho
  case pos => exact h.leave
  case pos => exact h.move fun position hn => Option.some.inj hn ▸ ⟨⟨c, hp⟩, .inl hr⟩
  case pos =>
    have hg : Grown w { w.move poll (some (.committing batch)) with accepted := w.accepted ++ [batch] } :=
      ⟨List.prefix_rfl, List.prefix_rfl, List.subset_append_left _ _⟩
    refine h.of_poll poll hg h.stored (fun p hp => Function.update_of_ne hp _ _) (fun position hn => ?_) ?_ ?_
    case refine_1 =>
      cases (polls_move (w := w)).symm.trans hn
      exact ⟨⟨c, hp.mono hg⟩, .inr (List.mem_append_right _ List.mem_cons_self)⟩
    case refine_2 =>
      intro b hm
      obtain hm | hm := List.mem_append.mp hm
      case inl =>
        obtain ⟨c, hc⟩ := h.accepted b hm
        exact ⟨c, hc.mono hg⟩
      case inr =>
        obtain rfl := List.mem_singleton.mp hm
        exact ⟨c, hp.mono hg⟩
    case refine_3 => exact fun b hm => (h.handed b hm).imp_right (List.mem_append_left _)
  case neg => exact h.leave

-- A commit goes through where no other has since the poll loaded its cursor.
theorem Invariant.committing (h : Invariant setting w) (hp : w.Placed setting (.committing batch)) :
    Invariant setting (w.proceed setting poll ok (.committing batch)) := by
  rw [World.proceed]
  split_ifs with hr
  case neg => exact h.leave
  obtain ⟨⟨c, k, hk, hn⟩, ha⟩ := hp
  have he : k = w.committed.length := by
    have hl := (hn.revision.trans hn.before.revision).symm.trans (hr.symm.trans h.stored.revision)
    rwa [List.length_take, Nat.min_eq_left hk] at hl
  subst he
  rw [List.take_length] at hn
  have hg : Grown w { w.move poll none with
      stored    := some { batch.cursor with revision := batch.cursor.revision + 1 }
      committed := w.committed ++ [batch] } :=
    ⟨List.prefix_rfl, List.prefix_append _ _, List.Subset.refl _⟩
  refine h.of_poll poll hg hn.after (fun p hp => Function.update_of_ne hp _ _) (fun position hm => ?_) ?_ ?_
  case refine_1 =>
    cases (polls_move (w := w)).symm.trans hm
  case refine_2 =>
    intro b hm
    obtain ⟨c, hc⟩ := h.accepted b hm
    exact ⟨c, hc.mono hg⟩
  case refine_3 =>
    intro b hm
    obtain hm | hm := List.mem_append.mp hm
    case inl => exact h.handed b hm
    case inr => exact List.mem_singleton.mp hm ▸ ha

theorem invariant_step {event : Event} (h : Invariant setting w) : Invariant setting (step setting w event) := by
  cases event
  case append bytes =>
    have hg : Grown w { w with file := w.file ++ bytes } :=
      ⟨List.prefix_append _ _, List.prefix_rfl, List.Subset.refl _⟩
    refine ⟨h.stored.append, fun p position hp => (h.polls p position hp).mono hg, fun b hm => ?_, h.handed⟩
    obtain ⟨c, hc⟩ := h.accepted b hm
    exact ⟨c, hc.mono hg⟩
  case poll poll =>
    refine h.move fun position hn => Option.some.inj hn ▸ ⟨w.committed.length, le_rfl, ?_⟩
    rw [List.take_length]
    exact h.stored
  case proceed poll ok =>
    unfold step
    cases hp : w.polls poll
    case none => simpa [hp] using h
    case some position =>
      simp only [hp]
      have hq := h.polls poll position hp
      cases position
      case loaded c =>
        obtain ⟨k, hk, hc⟩ := hq
        exact h.move fun position hn => Option.some.inj hn ▸ ⟨k, hk, w.file, List.prefix_rfl, hc, rfl⟩
      case reading    => exact h.reading hq
      case ready      => exact h.ready hq
      case committing => exact h.committing hq
  case crash => exact h.leave

theorem invariant_run {file : Bytes} {events : List Event} :
    Invariant setting (Run.run (step setting) (World.start file) events) := by
  refine Run.invariant (fun _ _ => invariant_step) ⟨?_, ?_, ?_, ?_⟩
  case refine_1 => exact Kept.start.mono List.nil_prefix
  all_goals simp [World.start]

-- However the file grows, however many collectors poll it and wherever they stop: the batches that are committed follow
-- on each other up to the cursor, between whole lines; their records are what the file up to there gives when it is read
-- at once in the format that the cursor has; and what they hold has been accepted before.
theorem collects (setting : Setting) (file : Bytes) (events : List Event) :
    let w := Run.run (step setting) (World.start file) events
    Tiles 0 w.committed w.load.offset ∧ w.load.offset ≤ w.file.length ∧
    setting.Reads (w.file.take w.load.offset) w.load.fmt (w.load.turn.getD false) (recordsOf w.committed) ∧
    (∀ batch ∈ w.committed, batch.records = [] ∨ batch ∈ w.accepted) ∧ w.load.replays = 0 := by
  have h : Invariant setting (Run.run (step setting) (World.start file) events) := invariant_run
  exact ⟨h.stored.tiles, h.stored.inside, h.stored.reads, h.handed, h.stored.replays⟩

theorem Next.readAll {file : Bytes} {batches : List Batch} {f : Format} (h : Next setting file batches c batch)
    (hf : batch.cursor.fmt = some f) :
    setting.readAll f (file.take batch.start) = some (recordsOf batches, c.turn.getD false) ∧
    ∃ turn, setting.readAll f (file.take batch.cursor.offset) = some (recordsOf batches ++ batch.records, turn) := by
  have hb := h.before.readAll fun hn => (h.fmt hn).symm.trans hf
  have ha := h.after.readAll fun _ => hf
  rw [recordsOf_concat] at ha
  exact ⟨h.start ▸ hb, _, ha⟩

-- Of two batches that were accepted from one place on, in one format, the one that stops first starts the other.
theorem accepted_prefix {setting : Setting} {file : Bytes} {events : List Event} {batch batch' : Batch}
    (hm : batch ∈ (Run.run (step setting) (World.start file) events).accepted)
    (hm' : batch' ∈ (Run.run (step setting) (World.start file) events).accepted)
    (hs : batch.start = batch'.start) (hf : batch.cursor.fmt = batch'.cursor.fmt)
    (ho : batch.cursor.offset ≤ batch'.cursor.offset) : batch.records <+: batch'.records := by
  have h : Invariant setting (Run.run (step setting) (World.start file) events) := invariant_run
  revert hm hm' h
  generalize Run.run (step setting) (World.start file) events = w
  intro hm hm' h
  obtain ⟨c, k, -, hn⟩ := h.accepted batch hm
  obtain ⟨c', k', -, hn'⟩ := h.accepted batch' hm'
  cases hc : batch.cursor.fmt
  case none =>
    obtain ⟨-, ⟨-, -, -, hr⟩ | ⟨f, hf', -⟩⟩ := hn.after.reads
    case inl =>
      rw [recordsOf_concat, List.append_eq_nil_iff] at hr
      exact hr.right ▸ List.nil_prefix
    case inr => simp [hc] at hf'
  case some f =>
    obtain ⟨hb, turn, ha⟩ := hn.readAll hc
    obtain ⟨hb', turn', ha'⟩ := hn'.readAll (hf.symm.trans hc)
    -- What was read before the place is the same for both.
    have he : recordsOf (w.committed.take k) = recordsOf (w.committed.take k') := by
      rw [hs] at hb
      exact congrArg Prod.fst (Option.some.inj (hb.symm.trans hb'))
    obtain ⟨more, hmore⟩ : w.file.take batch.cursor.offset <+: w.file.take batch'.cursor.offset :=
      List.take_prefix_take_left ho
    rw [← hmore] at ha'
    obtain ⟨records, s, hr, hp⟩ := Setting.readAll_prefix hn.after.reads.left ha'
    cases hr.symm.trans ha
    rw [he] at hp
    exact (List.prefix_append_right_inj _).mp hp

-- Two collectors begin at one place, and the second reads after the file has grown.
theorem accepted_prefix_grown :
    let setting : Setting := ⟨1, 2, fun _ => .value (.object [("type", .scalar (.str "user")),
      ("message", .scalar (.str "hello"))]), fun _ => [.value (.object [])], fun _ => ""⟩
    let events : List Event := [.append [65, 10, 66], .poll 0, .poll 1, .proceed 0 true, .proceed 0 true,
      .proceed 0 true, .append [10], .proceed 1 true, .proceed 1 true, .proceed 1 true]
    ∃ batch batch', (Run.run (step setting) (World.start []) events).accepted = [batch, batch'] ∧
      batch.cursor.offset = 2 ∧ batch'.cursor.offset = 4 ∧ batch.records <+: batch'.records := by
  intro setting events
  have h : ∃ batch batch', (Run.run (step setting) (World.start []) events).accepted = [batch, batch'] ∧
      batch.start = batch'.start ∧ batch.cursor.fmt = batch'.cursor.fmt ∧ batch.cursor.offset = 2 ∧
      batch'.cursor.offset = 4 := ⟨_, _, rfl, rfl, rfl, rfl, rfl⟩
  obtain ⟨batch, batch', hl, hs, hf, ho, ho'⟩ := h
  have hm : batch ∈ (Run.run (step setting) (World.start []) events).accepted := by simp [hl]
  have hm' : batch' ∈ (Run.run (step setting) (World.start []) events).accepted := by simp [hl]
  exact ⟨batch, batch', hl, ho, ho', accepted_prefix hm hm' hs hf (by omega)⟩

theorem run_proceed {events : List Event} (h : w.polls poll = some position) :
    Run.run (step setting) w (.proceed poll ok :: events) =
      Run.run (step setting) (w.proceed setting poll ok position) events := by
  simp [step, h]

theorem run_alone (poll : ℕ) (hb : setting.batch w.file w.load (setting.read w.file w.load) = some batch)
    (hr : batch.cursor.revision = w.load.revision) :
    (Run.run (step setting) w (.poll poll :: List.replicate 4 (.proceed poll true))).file = w.file ∧
    (Run.run (step setting) w (.poll poll :: List.replicate 4 (.proceed poll true))).load.offset = batch.cursor.offset := by
  -- The load, the reading and the decoding.
  obtain ⟨w₁, hw₁, hf₁, hl₁, hp₁⟩ : ∃ w₁, step setting (step setting (step setting w (.poll poll)) (.proceed poll true))
      (.proceed poll true) = w₁ ∧ w₁.file = w.file ∧ w₁.stored = w.stored ∧
      w₁.polls poll = some (.ready w.load batch) := by
    refine ⟨_, rfl, ?_⟩
    simp [step, World.move, World.proceed, hb]
  have he : Run.run (step setting) w (.poll poll :: List.replicate 4 (.proceed poll true)) =
      Run.run (step setting) w₁ [.proceed poll true, .proceed poll true] := by
    rw [← hw₁]
    rfl
  have hload : w₁.load = w.load := congrArg (Option.getD · Cursor.start) hl₁
  rw [he, run_proceed hp₁]
  by_cases hc : batch.cursor = w.load
  case pos => simp [World.proceed, hc, World.move, step, hf₁, World.load, hl₁]
  case neg =>
    obtain ⟨w₂, hw₂, hf₂, hl₂, hp₂⟩ : ∃ w₂, w₁.proceed setting poll true (.ready w.load batch) = w₂ ∧ w₂.file = w.file ∧
        w₂.load = w.load ∧ w₂.polls poll = some (.committing batch) := by
      refine ⟨_, rfl, ?_⟩
      rw [World.proceed, if_neg hc, if_pos rfl]
      split_ifs
      case pos => exact ⟨hf₁, hload, polls_move⟩
      case neg => exact ⟨hf₁, hload, polls_move (w := w₁)⟩
    rw [hw₂, run_proceed hp₂, World.proceed, if_pos (by rw [hl₂, hr])]
    exact ⟨hf₂, rfl⟩

-- A poll that nobody disturbs and that can decode what it reads takes in all the whole lines there are.
theorem poll_takes_lines {setting : Setting} {file : Bytes} {events : List Event} (poll : ℕ)
    (hb : setting.batch (Run.run (step setting) (World.start file) events).file
      (Run.run (step setting) (World.start file) events).load
      (setting.read (Run.run (step setting) (World.start file) events).file
        (Run.run (step setting) (World.start file) events).load) ≠ none) :
    let w := Run.run (step setting) (World.start file) events
    let w' := Run.run (step setting) w (.poll poll :: List.replicate 4 (.proceed poll true))
    w'.file = w.file ∧ 10 ∉ w'.file.drop w'.load.offset := by
  have h : Invariant setting (Run.run (step setting) (World.start file) events) := invariant_run
  revert hb h
  generalize Run.run (step setting) (World.start file) events = w
  intro hb h
  obtain ⟨batch, hb⟩ := Option.ne_none_iff_exists'.mp hb
  have hn := h.stored.next hb
  obtain ⟨same, hr, hs⟩ := h.stored.read
  have ho : batch.cursor.offset = w.load.offset + (completeOf (w.file.drop w.load.offset)).length := by
    rw [hr] at hb
    obtain ⟨fmt, records, turn, rfl, -⟩ := batch_cases hs hb
    rfl
  have hd : 10 ∉ w.file.drop batch.cursor.offset := by
    rw [ho, ← List.drop_drop]
    exact not_mem_drop_completeOf
  obtain ⟨hf, hl⟩ := run_alone poll hb hn.revision
  exact ⟨hf, by rw [hf, hl]; exact hd⟩

theorem poll_takes_lines_twice :
    let setting : Setting := ⟨1, 2, fun _ => .value (.object [("type", .scalar (.str "user")),
      ("message", .scalar (.str "hello"))]), fun _ => [.value (.object [])], fun _ => ""⟩
    let events : List Event := [.append [65, 10, 66], .poll 0, .proceed 0 true, .proceed 0 true, .proceed 0 true,
      .proceed 0 true, .append [10, 67]]
    let w := Run.run (step setting) (World.start []) events
    let w' := Run.run (step setting) w (.poll 1 :: List.replicate 4 (.proceed 1 true))
    w'.file = w.file ∧ 10 ∉ w'.file.drop w'.load.offset :=
  poll_takes_lines 1 (Option.isSome_iff_ne_none.mp rfl)

end Runs

end Collector
