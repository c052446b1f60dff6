import Mathlib.Data.List.Nodup
import Agentihooks.Importer.Sources

-- What is read of a transcript is what its lines say, as long as every line can be decoded and the alias that is spelled
-- last is as good as a deepest one.

namespace Importer

variable {loads : Bytes → Loaded} {provider : Provider} {aliases : Aliases} {data piece : Bytes}
variable {before pieces : List Bytes} {r r' : Reading} {entry : Entry} {seen : Bool} {cwd : Option String}

section Lines

-- A line after the lines before it.
structure Line where
  before : List Bytes
  piece  : Bytes
  last   : Bool

def linesFrom (before : List Bytes) : List Bytes → List Line
  | []            => []
  | piece :: rest => ⟨before, piece, rest.isEmpty⟩ :: linesFrom (before ++ [piece]) rest

def lines (data : Bytes) : List Line :=
  linesFrom [] (data.splitOn 10)

-- Where the line after some lines starts.
def offset : List Bytes → ℕ
  | []             => 0
  | piece :: after => piece.length + 1 + offset after

def Line.start (l : Line) : ℕ :=
  offset l.before

def Line.stop (l : Line) : ℕ :=
  l.start + l.piece.length

theorem offset_concat : offset (before ++ [piece]) = offset before + (piece.length + 1) := by
  induction before with
  | nil          => simp only [List.nil_append, offset]; omega
  | cons p ps hi => simp only [List.cons_append, offset, hi]; omega

-- The bytes of the line in the data, and the newline after it.
theorem span_linesFrom {l : Line} (hl : l ∈ linesFrom before pieces) :
    ∃ after, l.before ++ l.piece :: after = before ++ pieces ∧ l.last = after.isEmpty := by
  induction pieces generalizing before with
  | nil           => cases hl
  | cons p ps hi =>
    obtain rfl | hl := List.mem_cons.mp hl
    · exact ⟨ps, rfl, rfl⟩
    · obtain ⟨after, he, hlast⟩ := hi hl
      exact ⟨after, by rw [he, List.append_assoc, List.singleton_append], hlast⟩

-- The data of some lines ends before those after them begin.
theorem intercalate_append {after : List Bytes} (h : after ≠ []) : ∃ head : Bytes, head.length = offset before ∧
    ([10] : Bytes).intercalate (before ++ after) = head ++ ([10] : Bytes).intercalate after := by
  induction before with
  | nil          => exact ⟨[], rfl, rfl⟩
  | cons p ps hi =>
    obtain ⟨head, hl, he⟩ := hi
    obtain ⟨q, qs, hq⟩ := List.exists_cons_of_ne_nil (List.append_ne_nil_of_right_ne_nil ps h)
    refine ⟨p ++ [10] ++ head, by simp [offset, hl]; omega, ?_⟩
    rw [List.cons_append, hq, List.intercalate_cons_cons, ← hq, he]
    simp

theorem notMem_splitOn (h : piece ∈ data.splitOn 10) : 10 ∉ piece := by
  induction data generalizing piece with
  | nil             => simp_all
  | cons b data hi =>
    rw [List.splitOn_cons_eq_if_modifyHead] at h
    split at h
    case isTrue =>
      obtain rfl | h := List.mem_cons.mp h
      · exact List.not_mem_nil
      · exact hi h
    case isFalse hb =>
      obtain ⟨p, ps, hp⟩ := List.exists_cons_of_ne_nil (List.splitOn_ne_nil 10 data)
      rw [hp, List.modifyHead_cons] at h
      obtain rfl | h := List.mem_cons.mp h
      · rw [List.mem_cons, not_or]
        exact ⟨fun he => hb (beq_iff_eq.mpr he.symm), hi (hp ▸ List.mem_cons_self)⟩
      · exact hi (hp ▸ List.mem_cons_of_mem _ h)

-- What a line takes of the data: its bytes up to the newline.
structure Line.Spans (l : Line) (data : Bytes) : Prop where
  bytes   : (data.drop l.start).take (l.stop - l.start) = l.piece
  newline : 10 ∉ l.piece
  ended   : if l.last then l.stop = data.length else data[l.stop]? = some 10

theorem spans_lines {l : Line} (hl : l ∈ lines data) : l.Spans data := by
  obtain ⟨after, he, hlast⟩ := span_linesFrom hl
  rw [List.nil_append] at he
  obtain ⟨head, hlen, hdata⟩ := @intercalate_append l.before _ (List.cons_ne_nil l.piece after)
  rw [he, List.intercalate_splitOn] at hdata
  have hstart : l.start = head.length := hlen.symm
  have hstop : l.stop = head.length + l.piece.length := by rw [Line.stop, hstart]
  constructor
  case newline => exact notMem_splitOn (by rw [← he]; simp)
  case bytes =>
    rw [hdata, hstop, hstart, List.drop_left, Nat.add_sub_cancel_left]
    cases after with
    | nil       => simp
    | cons q qs => simp [List.intercalate_cons_cons]
  case ended =>
    rw [hlast, hstop, hdata]
    cases after with
    | nil       => simp
    | cons q qs => simp [List.intercalate_cons_cons]

end Lines

section Decode

-- Whether a decoder raises does not depend on the turn.
theorem decode_isSome (seen' : Bool) : (decode provider entry seen).isSome = (decode provider entry seen').isSome := by
  cases provider with
  | claude => rfl
  | codex  =>
    simp only [decode, decodeCodex]
    cases ((entry.lookup "payload").getD (.object [])) |> fieldsOf with
    | none         => rfl
    | some payload =>
      dsimp only
      split
      · simp only [codexResponseItem]
        split
        · cases codexKind (payload.lookup "role") with
          | none      => rfl
          | some kind =>
            cases codexTexts (payload.lookup "content") with
            | none       => rfl
            | some texts =>
              cases texts with
              | nil         => rfl
              | cons t rest =>
                cases ht : (t :: rest).mapM textOf with
                | none   => simp [ht]
                | some _ => simp [ht]
        all_goals rfl
      · split <;> rfl
      all_goals rfl

-- The object of a line, if it has one.
def entryOf (loads : Bytes → Loaded) (piece : Bytes) : Option Entry :=
  if blank piece then none
  else match loads piece with
    | .value (.object entry) => some entry
    | _                      => none

-- Whether the turn has a text of the assistant after some lines.
def seenAfter (loads : Bytes → Loaded) (provider : Provider) (pieces : List Bytes) : Bool :=
  pieces.foldl (fun seen piece => (((entryOf loads piece).bind (decode provider · seen)).map Prod.snd).getD seen) false

-- The working folder of an entry.
def folderOf (provider : Provider) (entry : Entry) : Option String :=
  ((observed provider entry).2.2.bind textOf).filter (· ≠ "")

-- The latest working folder of some lines.
def folderIn (loads : Bytes → Loaded) (provider : Provider) (pieces : List Bytes) : Option String :=
  (pieces.filterMap fun piece => (entryOf loads piece).bind (folderOf provider)).getLast?

theorem folderIn_concat : folderIn loads provider (before ++ [piece]) =
    ((entryOf loads piece).bind (folderOf provider)).or (folderIn loads provider before) := by
  rw [folderIn, List.filterMap_append, List.getLast?_append]
  cases h : (entryOf loads piece).bind (folderOf provider) with
  | none   => simp [h, folderIn]
  | some _ => simp [h]

namespace Line

variable (l : Line)

-- The records of a line.
def records (loads : Bytes → Loaded) (provider : Provider) : List Record :=
  match entryOf loads l.piece with
  | none       => []
  | some entry =>
    (((decode provider entry (seenAfter loads provider l.before)).map Prod.fst).getD []).map
      (· ++ [("source_time", sourceTime entry)])

def folder (loads : Bytes → Loaded) (provider : Provider) : Option String :=
  folderIn loads provider (l.before ++ [l.piece])

-- The loss of a line that is no object.
def loss (loads : Bytes → Loaded) : Option Loss :=
  if blank l.piece then none
  else match loads l.piece with
    | .undecodable       => some ⟨l.start, l.stop, if l.last then .truncated else .unparseable⟩
    | .value (.object _) => none
    | .value _           => some ⟨l.start, l.stop, .unparseable⟩
    | .raises            => none

-- Nothing raises an error that is not caught.
def Readable (loads : Bytes → Loaded) (provider : Provider) : Prop :=
  blank l.piece = false → match loads l.piece with
    | .raises                => False
    | .value (.object entry) => (decode provider entry false).isSome = true
    | _                      => True

end Line

end Decode

section Loop

-- An event without its sequence.
def Event.place (e : Event) : ℕ × ℕ × Option String × Record :=
  (e.byteStart, e.byteEnd, e.projectId, e.record)

def Line.placed (loads : Bytes → Loaded) (provider : Provider) (aliases : Aliases) (l : Line) :
    List (ℕ × ℕ × Option String × Record) :=
  (l.records loads provider).map fun record =>
    (l.start, l.stop, resolveProject (l.folder loads provider) aliases, record)

-- What the loop carries after some lines.
structure Reading.After (loads : Bytes → Loaded) (provider : Provider) (before : List Bytes) (r : Reading) : Prop where
  ends     : r.offset = Importer.offset before
  seen     : r.assistantSeen = seenAfter loads provider before
  cwd      : r.cwd = folderIn loads provider before
  numbered : r.read.events.map Event.sequence = List.range' 1 r.read.events.length

theorem firstText_eq {value other : Option String} : firstText value other = (value.filter (· ≠ "")).or other := by
  cases value with
  | none   => rfl
  | some s => by_cases h : s = "" <;> simp [firstText, Option.filter, h]

theorem seenAfter_concat : seenAfter loads provider (before ++ [piece]) =
    (((entryOf loads piece).bind (decode provider · (seenAfter loads provider before))).map Prod.snd).getD
      (seenAfter loads provider before) := by
  rw [seenAfter, List.foldl_append]
  rfl

theorem place_eventsOf {records : List Record} {first start stop : ℕ} {project : Option String} :
    (eventsOf entry records first start stop project).map Event.place =
      records.map fun record => (start, stop, project, record ++ [("source_time", sourceTime entry)]) := by
  rw [eventsOf, List.map_map]
  conv_rhs => rw [← List.zipIdx_map_fst 0 records, List.map_map]
  rfl

theorem sequence_eventsOf {records : List Record} {first start stop : ℕ} {project : Option String} :
    (eventsOf entry records first start stop project).map Event.sequence = List.range' first records.length := by
  rw [eventsOf, List.map_map, List.range'_eq_map_range, List.range_eq_range', ← List.zipIdx_map_snd 0 records,
    List.map_map]
  rfl

theorem length_eventsOf {records : List Record} {first start stop : ℕ} {project : Option String} :
    (eventsOf entry records first start stop project).length = records.length := by
  simp [eventsOf]

-- A line without an object carries only the offset on.
theorem Reading.After.skip (h : r.After loads provider before) (he : entryOf loads piece = none) (losses : List Loss) :
    Reading.After loads provider (before ++ [piece])
      ⟨{ r.read with losses := losses }, r.assistantSeen, r.cwd, r.offset + piece.length + 1⟩ where
  ends     := by rw [offset_concat, h.ends, Nat.add_assoc]
  seen     := by rw [seenAfter_concat, he]; exact h.seen
  cwd      := by rw [folderIn_concat, he]; exact h.cwd
  numbered := h.numbered

theorem Line.records_of_none {last : Bool} (he : entryOf loads piece = none) :
    Line.placed loads provider aliases ⟨before, piece, last⟩ = [] := by
  simp only [Line.placed, Line.records, he, List.map_nil]

theorem readPiece_of_readable {last : Bool} (h : r.After loads provider before)
    (hr : Line.Readable ⟨before, piece, last⟩ loads provider) :
    ∃ r', readPiece loads provider aliases last r piece = some r' ∧ r'.After loads provider (before ++ [piece]) ∧
      r'.read.events.map Event.place =
        r.read.events.map Event.place ++ Line.placed loads provider aliases ⟨before, piece, last⟩ ∧
      r'.read.losses = r.read.losses ++ (Line.loss ⟨before, piece, last⟩ loads).toList := by
  have hstart : Line.start ⟨before, piece, last⟩ = r.offset := h.ends.symm
  have hstop : Line.stop ⟨before, piece, last⟩ = r.offset + piece.length := by rw [Line.stop, hstart]
  simp only [readPiece, Line.loss, hstart, hstop]
  by_cases hb : blank piece
  case pos =>
    have he : entryOf loads piece = none := if_pos hb
    rw [if_pos hb, if_pos hb, Line.records_of_none he]
    exact ⟨_, rfl, h.skip he r.read.losses, by simp, by simp⟩
  case neg =>
    rw [if_neg hb, if_neg hb]
    have hr := hr (Bool.eq_false_iff.mpr hb)
    cases hl : loads piece with
    | raises      => simp only [hl] at hr
    | undecodable =>
      have he : entryOf loads piece = none := by simp [entryOf, hl]
      rw [Line.records_of_none he]
      exact ⟨_, rfl, h.skip he _, by simp [Reading.lose], by simp [Reading.lose]⟩
    | value v     =>
      cases v with
      | object entry =>
        have he : entryOf loads piece = some entry := by simp [entryOf, hb, hl]
        simp only [hl] at hr
        rw [decode_isSome r.assistantSeen] at hr
        obtain ⟨⟨records, seen⟩, hd⟩ := Option.isSome_iff_exists.mp hr
        have hd' : decode provider entry (seenAfter loads provider before) = some (records, seen) := h.seen ▸ hd
        have hcwd : firstText (observe provider entry r.read.metadata).1 r.cwd =
            folderIn loads provider (before ++ [piece]) := by
          rw [folderIn_concat, he, firstText_eq, h.cwd]
          rfl
        simp only [hd, Option.map_some]
        refine ⟨_, rfl, ⟨?_, ?_, hcwd, ?_⟩, ?_, (List.append_nil _).symm⟩
        case refine_1 => rw [offset_concat, ← h.ends, Nat.add_assoc]
        case refine_2 => simp [seenAfter_concat, he, hd']
        case refine_3 =>
          rw [List.map_append, h.numbered, sequence_eventsOf, List.length_append, length_eventsOf, Nat.add_comm _ 1,
            List.range'_append_1]
        case refine_4 =>
          rw [List.map_append, place_eventsOf, Line.placed, Line.records]
          simp only [he, hd', Option.map_some, Option.getD_some, List.map_map, hcwd, hstart, hstop, Line.folder]
          rfl
      | scalar a     =>
        have he : entryOf loads piece = none := by simp [entryOf, hl]
        rw [Line.records_of_none he]
        exact ⟨_, rfl, h.skip he _, by simp [Reading.lose], by simp [Reading.lose]⟩
      | array items  =>
        have he : entryOf loads piece = none := by simp [entryOf, hl]
        rw [Line.records_of_none he]
        exact ⟨_, rfl, h.skip he _, by simp [Reading.lose], by simp [Reading.lose]⟩

theorem readable_of_readPiece {last : Bool} (h : readPiece loads provider aliases last r piece = some r') :
    Line.Readable ⟨before, piece, last⟩ loads provider := by
  intro hb
  simp only [readPiece, if_neg (Bool.eq_false_iff.mp hb)] at h
  cases hl : loads piece with
  | raises      => simp [hl] at h
  | undecodable => trivial
  | value v     =>
    cases v with
    | scalar a     => trivial
    | array items  => trivial
    | object entry =>
      simp only [hl, Option.map_eq_some_iff] at h
      obtain ⟨result, hd, _⟩ := h
      simp only
      rw [decode_isSome r.assistantSeen, hd]
      rfl

theorem readFrom_of_readable (h : r.After loads provider before)
    (hr : ∀ l ∈ linesFrom before pieces, l.Readable loads provider) :
    ∃ r', readFrom loads provider aliases r pieces = some r' ∧ r'.After loads provider (before ++ pieces) ∧
      r'.read.events.map Event.place =
        r.read.events.map Event.place ++ (linesFrom before pieces).flatMap (Line.placed loads provider aliases) ∧
      r'.read.losses = r.read.losses ++ (linesFrom before pieces).filterMap (Line.loss · loads) := by
  induction pieces generalizing r before with
  | nil                => exact ⟨r, rfl, by rwa [List.append_nil], by simp [linesFrom], by simp [linesFrom]⟩
  | cons piece rest hi =>
    rw [linesFrom, List.forall_mem_cons] at hr
    obtain ⟨r₁, h₁, hafter, hevents, hlosses⟩ := @readPiece_of_readable _ _ aliases _ _ _ _ h hr.left
    obtain ⟨r₂, h₂, hafter₂, hevents₂, hlosses₂⟩ := hi hafter hr.right
    refine ⟨r₂, by rw [readFrom, h₁]; exact h₂, by rwa [List.append_assoc] at hafter₂, ?_, ?_⟩
    · rw [hevents₂, hevents, linesFrom, List.flatMap_cons, List.append_assoc]
    · rw [hlosses₂, hlosses, linesFrom, List.append_assoc]
      cases hloss : Line.loss ⟨before, piece, rest.isEmpty⟩ loads <;> simp [hloss]

theorem readable_of_readFrom (h : readFrom loads provider aliases r pieces = some r') :
    ∀ l ∈ linesFrom before pieces, l.Readable loads provider := by
  induction pieces generalizing r before with
  | nil                => simp [linesFrom]
  | cons piece rest hi =>
    obtain ⟨r₁, h₁, h₂⟩ := Option.bind_eq_some_iff.mp h
    rw [linesFrom, List.forall_mem_cons]
    exact ⟨readable_of_readPiece h₁, hi h₂⟩

theorem after_start : Reading.start.After loads provider [] :=
  ⟨rfl, rfl, rfl, rfl⟩

end Loop

section Attribution

variable {f : String} {project : Option String}

-- A folder that is absolute lies in another one by its parts, however they are spelled.
def Contains (other folder : String) : Prop :=
  absolute folder = true ∧ parts other <+: parts folder

-- An alias that contains the folder, and no alias that does is deeper.
def Deepest (aliases : Aliases) (folder : String) (item : String × String) : Prop :=
  item ∈ aliases.items ∧ Contains item.1 folder ∧
    ∀ other ∈ aliases.items, Contains other.1 folder → (parts other.1).length ≤ (parts item.1).length

-- The project of a deepest alias that contains the folder, or none.
def ProjectOf (aliases : Aliases) (folder project : Option String) : Prop :=
  (∃ f item, folder = some f ∧ Deepest aliases f item ∧ project = some item.2) ∨
    (∀ f, folder = some f → ∀ item ∈ aliases.items, ¬ Contains item.1 f) ∧ project = none

-- Where an alias contains the folder, the alias that is spelled last of those found is as good as a deepest one.
def SpelledWell (aliases : Aliases) (folder : Option String) : Prop :=
  ∀ f, folder = some f → (∃ item ∈ aliases.items, Contains item.1 f) →
    ∃ last ∈ aliases.items, isRelativeTo f last.1 = true ∧
      (∀ item ∈ aliases.items, isRelativeTo f item.1 = true → item.1 ≤ last.1) ∧
        ∃ item, Deepest aliases f item ∧ item.2 = last.2

theorem contains_of_isRelativeTo {other : String} (ha : absolute f = true) (h : isRelativeTo f other = true) :
    Contains other f := by
  rw [isRelativeTo, decide_eq_true_iff] at h
  exact ⟨ha, List.isPrefixOf_iff_prefix.mp h.right⟩

-- The alias that `max` takes.
theorem mem_argmax_iff {last : String × String} :
    last ∈ (aliases.items.filter fun item => isRelativeTo f item.1).argmax Prod.fst ↔
      last ∈ aliases.items ∧ isRelativeTo f last.1 = true ∧
        ∀ item ∈ aliases.items, isRelativeTo f item.1 = true → item.1 ≤ last.1 := by
  constructor
  case mp =>
    intro h
    obtain ⟨hm, hr⟩ := List.mem_filter.mp (List.argmax_mem h)
    exact ⟨hm, hr, fun item hi hri => List.le_of_mem_argmax (List.mem_filter.mpr ⟨hi, hri⟩) h⟩
  case mpr =>
    rintro ⟨hm, hr, hmax⟩
    have hmem : last ∈ aliases.items.filter fun item => isRelativeTo f item.1 := List.mem_filter.mpr ⟨hm, hr⟩
    cases ha : (aliases.items.filter fun item => isRelativeTo f item.1).argmax Prod.fst with
    | none       =>
      rw [List.argmax_eq_none] at ha
      rw [ha] at hmem
      cases hmem
    | some found =>
      obtain ⟨hmf, hrf⟩ := List.mem_filter.mp (List.argmax_mem ha)
      have he : found.1 = last.1 := le_antisymm (hmax found hmf hrf) (List.le_of_mem_argmax hmem ha)
      rw [List.inj_on_of_nodup_map aliases.nodup hmf hm he]
      rfl

theorem resolveProject_eq_some : resolveProject (some f) aliases = project ∧ project ≠ none ↔
    absolute f = true ∧ ∃ last ∈ aliases.items, isRelativeTo f last.1 = true ∧
      (∀ item ∈ aliases.items, isRelativeTo f item.1 = true → item.1 ≤ last.1) ∧ project = some last.2 := by
  simp only [resolveProject]
  by_cases ha : absolute f
  case neg => simp_all
  case pos =>
    rw [if_pos ha]
    constructor
    case mp =>
      rintro ⟨rfl, hn⟩
      obtain ⟨project, hp⟩ := Option.ne_none_iff_exists'.mp hn
      obtain ⟨last, hl, rfl⟩ := Option.map_eq_some_iff.mp hp
      obtain ⟨hm, hr, hmax⟩ := mem_argmax_iff.mp hl
      exact ⟨ha, last, hm, hr, hmax, hp⟩
    case mpr =>
      rintro ⟨_, last, hm, hr, hmax, rfl⟩
      have hl := mem_argmax_iff.mpr ⟨hm, hr, hmax⟩
      rw [Option.mem_def.mp hl]
      exact ⟨rfl, nofun⟩

theorem projectOf_resolveProject :
    ProjectOf aliases cwd (resolveProject cwd aliases) ↔ SpelledWell aliases cwd := by
  cases cwd with
  | none   => exact ⟨fun _ => nofun, fun _ => .inr ⟨nofun, rfl⟩⟩
  | some f =>
    constructor
    case mp =>
      rintro h f' hf ⟨other, ho, hc⟩
      obtain rfl := Option.some.inj hf
      obtain ⟨_, item, hf', hd, hp⟩ | ⟨hn, _⟩ := h
      case inl =>
        obtain rfl := Option.some.inj hf'
        obtain ⟨_, last, hm, hr, hmax, hl⟩ := resolveProject_eq_some.mp ⟨hp, nofun⟩
        exact ⟨last, hm, hr, hmax, item, hd, Option.some.inj hl⟩
      case inr => exact absurd hc (hn f rfl other ho)
    case mpr =>
      intro hw
      by_cases hc : ∃ item ∈ aliases.items, Contains item.1 f
      case pos =>
        obtain ⟨last, hm, hr, hmax, item, hd, he⟩ := hw f rfl hc
        obtain ⟨_, _, habs, _⟩ := hc
        refine .inl ⟨f, item, rfl, hd, ?_⟩
        rw [he]
        exact (resolveProject_eq_some.mpr ⟨habs, last, hm, hr, hmax, rfl⟩).left
      case neg =>
        refine .inr ⟨fun f' hf item hi hci => hc ⟨item, hi, Option.some.inj hf ▸ hci⟩, ?_⟩
        by_contra hn
        obtain ⟨habs, last, hm, hr, _⟩ := resolveProject_eq_some.mp ⟨rfl, hn⟩
        exact hc ⟨last, hm, contains_of_isRelativeTo habs hr⟩

end Attribution

section Run

-- What is read of a source says what its lines say.
structure Exact (loads : Bytes → Loaded) (provider : Provider) (aliases : Aliases) (data : Bytes) (read : SourceRead) :
    Prop where
  sequences : read.events.map Event.sequence = List.range' 1 read.events.length
  spans     : ∀ l ∈ lines data, l.Spans data
  settled   : ∀ l ∈ lines data, blank l.piece = false →
    ((entryOf loads l.piece).isSome = true ↔ l.loss loads = none) ∧
      ∀ loss, l.loss loads = some loss → (loss.reason = .truncated ↔ l.last = true ∧ loads l.piece = .undecodable)
  losses    : read.losses = (lines data).filterMap (Line.loss · loads)
  events    : ∃ projectOf : Line → Option String,
    (∀ l ∈ lines data, l.records loads provider ≠ [] → ProjectOf aliases (l.folder loads provider) (projectOf l)) ∧
      read.events.map Event.place = (lines data).flatMap fun l =>
        (l.records loads provider).map fun record => (l.start, l.stop, projectOf l, record)

theorem eq_of_flatMap {α β : Type} {ls : List α} {f g : α → List β} (hl : ∀ l, (f l).length = (g l).length)
    (h : ls.flatMap f = ls.flatMap g) : ∀ l ∈ ls, f l = g l := by
  induction ls with
  | nil          => exact fun _ => nofun
  | cons l ls hi =>
    rw [List.flatMap_cons, List.flatMap_cons] at h
    obtain ⟨hf, hs⟩ := List.append_inj h (hl l)
    rw [List.forall_mem_cons]
    exact ⟨hf, hi hs⟩

theorem settled_line {l : Line} (hr : l.Readable loads provider) (hb : blank l.piece = false) :
    ((entryOf loads l.piece).isSome = true ↔ l.loss loads = none) ∧
      ∀ loss, l.loss loads = some loss → (loss.reason = .truncated ↔ l.last = true ∧ loads l.piece = .undecodable) := by
  have hr := hr hb
  simp only [entryOf, Line.loss, hb, Bool.false_eq_true, if_false]
  cases hl : loads l.piece with
  | raises      => simp [hl] at hr
  | undecodable => cases hlast : l.last <;> simp
  | value v     => cases v <;> simp

theorem readSource_exact_iff : (∃ read, readSource loads provider aliases data = some read ∧
      Exact loads provider aliases data read) ↔
    (∀ l ∈ lines data, l.Readable loads provider) ∧
      ∀ l ∈ lines data, l.records loads provider ≠ [] → SpelledWell aliases (l.folder loads provider) := by
  constructor
  case mp =>
    rintro ⟨read, hread, hexact⟩
    obtain ⟨r, hr, rfl⟩ := Option.map_eq_some_iff.mp hread
    have hreadable : ∀ l ∈ lines data, l.Readable loads provider := readable_of_readFrom hr
    refine ⟨hreadable, fun l hl hne => ?_⟩
    obtain ⟨r', hr', _, hevents, _⟩ := @readFrom_of_readable _ _ aliases _ _ _ after_start hreadable
    rw [hr, Option.some.injEq] at hr'
    subst hr'
    obtain ⟨projectOf, hproject, hplaces⟩ := hexact.events
    rw [hevents] at hplaces
    have hline := eq_of_flatMap (fun l => by simp [Line.placed]) hplaces l hl
    obtain ⟨record, rest, hrec⟩ := List.exists_cons_of_ne_nil hne
    rw [Line.placed, hrec, List.map_cons, List.map_cons, List.cons.injEq, Prod.mk.injEq, Prod.mk.injEq,
      Prod.mk.injEq] at hline
    rw [← projectOf_resolveProject, hline.left.right.right.left]
    exact hproject l hl hne
  case mpr =>
    rintro ⟨hreadable, hspelled⟩
    obtain ⟨r, hr, hafter, hevents, hlosses⟩ := @readFrom_of_readable _ _ aliases _ _ _ after_start hreadable
    refine ⟨r.read, by rw [readSource, hr]; rfl, hafter.numbered, fun l => spans_lines,
      fun l hl hb => settled_line (hreadable l hl) hb, hlosses, ?_⟩
    exact ⟨fun l => resolveProject (l.folder loads provider) aliases,
      fun l hl hne => projectOf_resolveProject.mpr (hspelled l hl hne), hevents⟩

-- An alias that ends in a dot, and one in the same folder that starts with a minus.
def dotted : Aliases where
  items    := [("/a/.", "outer"), ("/a/-x", "inner")]
  nodup    := by decide
  absolute := by decide

-- A line `{"type":"user","cwd":"/a/-x/y","message":"hi"}`, and a line of Codex whose message has no content.
def prompt : JsonValue :=
  .object [("type", text "user"), ("cwd", text "/a/-x/y"), ("message", text "hi")]

def empty : JsonValue :=
  .object [("type", text "response_item"),
    ("payload", .object [("type", text "message"), ("role", text "user"), ("content", .scalar .null)])]

theorem readSource_misses :
    ((readSource (fun _ => .value prompt) .claude dotted [123, 125]).map (·.events.map Event.projectId) =
        some [some "outer"] ∧
      Deepest dotted "/a/-x/y" ("/a/-x", "inner") ∧ ¬ Deepest dotted "/a/-x/y" ("/a/.", "outer")) ∧
    (readSource (fun _ => .value empty) .codex dotted [123, 125]).isNone = true ∧
      (readSource (fun _ => .raises) .claude dotted [49, 49]).isNone = true := by
  refine ⟨⟨by decide +kernel, ?_, ?_⟩, by decide +kernel, by decide +kernel⟩
  case refine_1 =>
    refine ⟨by decide, ⟨by decide +kernel, by decide +kernel⟩, fun other ho hc => ?_⟩
    clear hc
    revert other
    decide +kernel
  case refine_2 =>
    intro h
    have hc : Contains "/a/-x" "/a/-x/y" := ⟨by decide +kernel, by decide +kernel⟩
    exact absurd (h.right.right ("/a/-x", "inner") (by decide) hc) (by decide +kernel)

end Run

end Importer
