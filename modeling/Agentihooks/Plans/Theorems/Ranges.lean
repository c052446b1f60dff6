import Agentihooks.Library.JsonText
import Agentihooks.Plans.Ranges

-- Which lines are entries, and what lies between the lines that a range has.

namespace Plans

open Text

variable {text line title name : String} {lines : List String} {entries : List Entry} {n : ℕ} {e b : Entry}

-- No fence is open before the line, and it neither opens nor closes one.
def Outside (lines : List String) (n : ℕ) (line : String) : Prop :=
  1 ≤ n ∧ lines[n - 1]? = some line ∧ (lines.take (n - 1)).foldl toggle none = none ∧ fence line = none

abbrev Ordered (entries : List Entry) : Prop :=
  entries.Pairwise fun a b => a.number < b.number

def Blank (lines : List String) (n : ℕ) : Prop :=
  strip (lines.getD (n - 1) "") = ""

-- A range from a heading to just before the next one that is as high, or to the last line.
structure Section (entries : List Entry) (last : ℕ) (e : Entry) (r : Range) : Prop where
  mem     : e ∈ entries
  heading : e.level ≠ 0
  first   : r.first = e.number
  le      : r.first ≤ r.last
  within  : r.last ≤ last
  stop    : r.last = last ∨ ∃ b ∈ entries, b.level ≠ 0 ∧ b.level ≤ e.level ∧ b.number = r.last + 1
  before  : ∀ b ∈ entries, b.level ≠ 0 → b.level ≤ e.level → e.number < b.number → r.last < b.number

-- A range from an anchor to the last line with text before the next anchor, a heading, or the end of the phase's range.
structure Slice (word : Char → Bool) (text : String) (range : Range) (a : Entry) (r : Range) : Prop where
  first  : r.first = a.number
  le     : r.first ≤ r.last
  within : range.first ≤ r.first ∧ r.last ≤ range.last
  solid  : ¬ Blank (splitlines text) r.last
  stop   : ∃ n, r.last < n ∧ (∀ i, r.last < i → i < n → Blank (splitlines text) i) ∧
    (n = min range.last (splitlines text).length + 1 ∨
      ∃ b ∈ sections text, b.number = n ∧ (b.level ≠ 0 ∨ (anchor word b.text).isSome))
  before : ∀ b ∈ sections text, b.level = 0 → (anchor word b.text).isSome → a.number < b.number →
    b.number ≤ range.last → r.last < b.number

theorem entry_number : (entry n line).number = n := by
  rw [entry]
  cases heading line <;> rfl

theorem entry_text (h : (entry n line).level = 0) : (entry n line).text = line := by
  rw [entry] at h ⊢
  cases hh : heading line
  case none => rfl
  case some x =>
    simp only [hh] at h
    rw [heading] at hh
    split_ifs at hh with hl
    obtain ⟨level, title⟩ := x
    cases hh
    simp only at h
    omega

theorem scan_cons {open' : Option (List Char)} : scan open' n (line :: lines) =
    (if open' = none ∧ fence line = none then [entry n line] else []) ++ scan (toggle open' line) (n + 1) lines := by
  rw [scan]
  split_ifs <;> rfl

theorem mem_scan {open' : Option (List Char)} : e ∈ scan open' n lines ↔
    ∃ i line, lines[i]? = some line ∧ (lines.take i).foldl toggle open' = none ∧ fence line = none ∧
      e = entry (n + i) line := by
  induction lines generalizing open' n
  case nil => simp [scan]
  case cons line lines hi =>
    rw [scan_cons, List.mem_append, hi]
    constructor
    case mp =>
      rintro (hm | ⟨i, line', hl, ho, hf, he⟩)
      case inl =>
        split_ifs at hm with hc
        case pos => exact ⟨0, line, rfl, hc.left, hc.right, List.mem_singleton.mp hm⟩
        case neg => cases hm
      case inr => exact ⟨i + 1, line', hl, ho, hf, by rw [he, Nat.add_right_comm, Nat.add_assoc]⟩
    case mpr =>
      rintro ⟨i, line', hl, ho, hf, he⟩
      cases i
      case zero =>
        cases hl
        refine .inl ?_
        rw [if_pos ⟨ho, hf⟩]
        exact List.mem_singleton.mpr he
      case succ i => exact .inr ⟨i, line', hl, ho, hf, by rw [he, Nat.add_right_comm, Nat.add_assoc]⟩

theorem scan_ordered {open' : Option (List Char)} : Ordered (scan open' n lines) := by
  induction lines generalizing open' n
  case nil => exact .nil
  case cons line lines hi =>
    rw [scan_cons, Ordered, List.pairwise_append]
    refine ⟨?_, hi, ?_⟩
    case refine_1 => split_ifs <;> simp
    case refine_2 =>
      intro a ha b hb
      split_ifs at ha
      case pos =>
        obtain ⟨i, _, _, _, _, rfl⟩ := mem_scan.mp hb
        rw [List.mem_singleton.mp ha, entry_number, entry_number]
        omega
      case neg => cases ha

theorem sections_ordered : Ordered (sections text) :=
  scan_ordered

-- The entries are the lines outside of fenced code.
theorem mem_sections :
    e ∈ sections text ↔ ∃ line, Outside (splitlines text) e.number line ∧ e = entry e.number line := by
  rw [sections, mem_scan]
  constructor
  case mp =>
    rintro ⟨i, line, hl, ho, hf, rfl⟩
    refine ⟨line, ?_, by rw [entry_number]⟩
    rw [entry_number, Outside, Nat.add_sub_cancel_left]
    exact ⟨by omega, hl, ho, hf⟩
  case mpr =>
    rintro ⟨line, ⟨hn, hl, ho, hf⟩, he⟩
    exact ⟨e.number - 1, line, hl, ho, hf, by rw [Nat.add_sub_cancel' hn]; exact he⟩

theorem number_le (h : e ∈ sections text) : 1 ≤ e.number ∧ e.number ≤ (splitlines text).length := by
  obtain ⟨line, ⟨hn, hl, _⟩, _⟩ := mem_sections.mp h
  have hlt := (List.getElem?_eq_some_iff.mp hl).choose
  omega

theorem getD_of_mem (h : e ∈ sections text) (hl : e.level = 0) : (splitlines text).getD (e.number - 1) "" = e.text := by
  obtain ⟨line, ⟨_, hline, _⟩, he⟩ := mem_sections.mp h
  rw [he] at hl ⊢
  rw [entry_number, entry_text hl, List.getD_eq_getElem?_getD, hline, Option.getD_some]

-- In order, the first entry of a kind has the least number of them.
theorem find?_le {p : Entry → Bool} (ho : Ordered entries) (h : entries.find? p = some b) :
    ∀ e ∈ entries, p e → b.number ≤ e.number := by
  obtain ⟨_, as, bs, rfl, has⟩ := List.find?_eq_some_iff_append.mp h
  intro e he hp
  rw [List.mem_append, List.mem_cons] at he
  obtain he | rfl | he := he
  · have := has e he
    simp [hp] at this
  · exact le_rfl
  · have hb := List.pairwise_cons.mp (List.pairwise_append.mp ho).right.left
    exact (hb.left e he).le

theorem eq_of_number (he : e ∈ sections text) (hb : b ∈ sections text) (h : e.number = b.number) : e = b := by
  obtain ⟨line, ⟨_, hl, _⟩, he⟩ := mem_sections.mp he
  obtain ⟨line', ⟨_, hl', _⟩, hb⟩ := mem_sections.mp hb
  rw [h, hl', Option.some_inj] at hl
  rw [he, hb, h, hl]

-- What a range is written as is read back.
theorem number_toDigits (h : 1 ≤ n) : number (Nat.toDigits 10 n) = some n := by
  have hd : (Nat.toDigits 10 n).all Char.isDigit = true :=
    List.all_eq_true.mpr fun _ hc => Nat.isDigit_of_mem_toDigits (by decide) (by decide) hc
  cases ht : Nat.toDigits 10 n
  case nil => exact absurd ht Nat.toDigits_ne_nil
  case cons c l =>
    have hc : c ≠ '0' := by
      rintro rfl
      have hz := congrArg (Nat.ofDigitChars 10 · 0) (JsonText.toDigits_head (by rw [ht]; rfl))
      rw [Nat.ofDigitChars_ten_toDigits] at hz
      have hn : n = 0 := hz
      omega
    rw [← ht, number]
    · rw [if_pos hd, Nat.ofDigitChars_ten_toDigits]
    · exact Nat.toDigits_ne_nil
    · rw [ht]
      simp [hc]

theorem bounds_text {r : Range} (h : 1 ≤ r.first) (hl : r.first ≤ r.last) : bounds r.text = .ok r := by
  have hd : ∀ c ∈ Nat.toDigits 10 r.first, decide (c ≠ '-') = true := by
    intro c hc
    have hdigit := Nat.isDigit_of_mem_toDigits (by decide) (by decide) hc
    rw [decide_eq_true_iff]
    rintro rfl
    exact absurd hdigit (by decide)
  have ht : r.text.toList = Nat.toDigits 10 r.first ++ '-' :: Nat.toDigits 10 r.last := by
    simp [Range.text]
  rw [bounds, ht, List.takeWhile_append_of_pos hd, List.dropWhile_append_of_pos hd]
  simp only [ne_eq, not_true_eq_false, decide_false, Bool.false_eq_true, not_false_eq_true, List.takeWhile_cons_of_neg,
    List.append_nil, List.dropWhile_cons_of_neg, List.tail_cons]
  rw [number_toDigits h, number_toDigits (h.trans hl)]
  exact if_pos hl

section Phases

variable {casefold : String → String} {phases : List PhaseTitle} {ranges found : KeyTable String String} {r : Range}

theorem phaseRange_eq (h : headings casefold (sections text) title = [e]) : phaseRange casefold text title =
    .ok ⟨e.number, ((next (sections text) e.number e.level).map (·.number - 1)).getD (splitlines text).length⟩ := by
  rw [phaseRange, h]

theorem headings_of_phaseRange (h : phaseRange casefold text title = .ok r) :
    ∃ e, headings casefold (sections text) title = [e] := by
  rw [phaseRange] at h
  split at h
  case h_1 e he => exact ⟨e, he⟩
  case h_2      => cases h

theorem section_of_phaseRange (h : phaseRange casefold text title = .ok r)
    (he : headings casefold (sections text) title = [e]) : Section (sections text) (splitlines text).length e r := by
  rw [phaseRange_eq he, Except.ok.injEq] at h
  have hm : e ∈ headings casefold (sections text) title := by simp [he]
  rw [headings, List.mem_filter, decide_eq_true_iff] at hm
  have hn := number_le hm.left
  cases hx : next (sections text) e.number e.level
  case none =>
    rw [hx] at h
    subst h
    refine ⟨hm.left, hm.right.left, rfl, hn.right, le_rfl, .inl rfl, fun b hb hl hle hlt => ?_⟩
    have hp := List.find?_eq_none.mp hx b hb
    simp only [decide_eq_true_iff, not_and] at hp
    exact absurd hle (hp hlt (Nat.pos_of_ne_zero hl))
  case some b =>
    rw [hx] at h
    subst h
    have hp := List.find?_some hx
    have hb := List.mem_of_find?_eq_some hx
    have hbn := number_le hb
    rw [decide_eq_true_iff] at hp
    constructor
    case mem     => exact hm.left
    case heading => exact hm.right.left
    case first   => rfl
    case le      => exact Nat.le_sub_one_of_lt hp.left
    case within  => exact (Nat.sub_le _ _).trans hbn.right
    case stop    => exact .inr ⟨b, hb, hp.right.left.ne', hp.right.right, (Nat.sub_add_cancel hbn.left).symm⟩
    case before  =>
      intro b' hb' hl hle hlt
      have hnext := find?_le sections_ordered hx b' hb' (decide_eq_true ⟨hlt, Nat.pos_of_ne_zero hl, hle⟩)
      simp only [Option.map_some, Option.getD_some]
      omega

theorem lookup_rangesOf (h : rangesOf casefold text phases found = .ok ranges) {id value : String}
    (hv : ranges.lookup id = some value) : found.lookup id = some value ∨
      ∃ phase ∈ phases, phase.id = id ∧ ∃ r, phaseRange casefold text phase.title = .ok r ∧ value = r.text := by
  induction phases generalizing found
  case nil =>
    cases h
    exact .inl hv
  case cons phase phases hi =>
    rw [rangesOf] at h
    cases hr : phaseRange casefold text phase.title
    case error => rw [hr] at h; cases h
    case ok r =>
      rw [hr] at h
      obtain hf | ⟨p, hp, hid, hpr⟩ := hi h
      case inr => exact .inr ⟨p, List.mem_cons_of_mem _ hp, hid, hpr⟩
      case inl =>
        by_cases hid : id = phase.id
        case neg =>
          rw [AList.lookup_insert_ne hid] at hf
          exact .inl hf
        case pos =>
          subst hid
          rw [AList.lookup_insert, Option.some_inj] at hf
          exact .inr ⟨phase, List.mem_cons_self, rfl, r, hr, hf.symm⟩

theorem lookup_rangesOf_ne_none (h : rangesOf casefold text phases found = .ok ranges) {id : String}
    (hid : found.lookup id ≠ none ∨ ∃ phase ∈ phases, phase.id = id) : ranges.lookup id ≠ none := by
  induction phases generalizing found
  case nil =>
    cases h
    simpa using hid
  case cons phase phases hi =>
    rw [rangesOf] at h
    cases hr : phaseRange casefold text phase.title
    case error => rw [hr] at h; cases h
    case ok r =>
      rw [hr] at h
      refine hi h ?_
      by_cases he : id = phase.id
      case pos =>
        refine .inl ?_
        rw [he, AList.lookup_insert]
        exact Option.some_ne_none _
      case neg =>
        obtain hf | ⟨p, hp, hpid⟩ := hid
        case inl =>
          refine .inl ?_
          rwa [AList.lookup_insert_ne he]
        case inr =>
          obtain rfl | hp := List.mem_cons.mp hp
          · exact absurd hpid.symm he
          · exact .inr ⟨p, hp, hpid⟩

-- A phase has the section of its heading, or the whole plan if it has none and there is no other phase.
def Assigned (casefold : String → String) (text : String) (phases : List PhaseTitle) (phase : PhaseTitle) (r : Range) :
    Prop :=
  (∃ e, headings casefold (sections text) phase.title = [e] ∧
    Section (sections text) (splitlines text).length e r) ∨
  phases = [phase] ∧ headings casefold (sections text) phase.title = [] ∧ splitlines text ≠ [] ∧
    r = ⟨1, (splitlines text).length⟩

theorem rangesOf_assigned (h : rangesOf casefold text phases ∅ = .ok ranges) :
    (∀ phase ∈ phases, ranges.lookup phase.id ≠ none) ∧
    ∀ id value, ranges.lookup id = some value → ∃ phase ∈ phases, phase.id = id ∧
      ∃ r, value = r.text ∧ Assigned casefold text phases phase r := by
  refine ⟨fun phase hp => lookup_rangesOf_ne_none h (.inr ⟨phase, hp, rfl⟩), fun id value hv => ?_⟩
  obtain hf | ⟨phase, hp, hid, r, hr, rfl⟩ := lookup_rangesOf h hv
  · cases hf
  · obtain ⟨e, he⟩ := headings_of_phaseRange hr
    exact ⟨phase, hp, hid, r, rfl, .inl ⟨e, he, section_of_phaseRange hr he⟩⟩

theorem phaseLines_assigned (h : phaseLines casefold text phases = .ok ranges) :
    (∀ phase ∈ phases, ranges.lookup phase.id ≠ none) ∧
    ∀ id value, ranges.lookup id = some value → ∃ phase ∈ phases, phase.id = id ∧
      ∃ r, value = r.text ∧ Assigned casefold text phases phase r := by
  rw [phaseLines.eq_def] at h
  split at h
  case h_2 => exact rangesOf_assigned h
  case h_1 phase =>
    split_ifs at h with hc
    case neg => exact rangesOf_assigned h
    case pos =>
      cases h
      have hl (id : String) : (KeyTable.ofList [(phase.id, (Range.mk 1 (splitlines text).length).text)]).lookup id =
          [(phase.id, (Range.mk 1 (splitlines text).length).text)].lookup id :=
        KeyTable.lookup_ofList (by simp)
      constructor
      case left =>
        intro p hp
        rw [List.mem_singleton.mp hp, hl]
        simp
      case right =>
        intro id value hv
        rw [hl, List.lookup_cons, List.lookup_nil] at hv
        cases hid : id == phase.id
        case false => rw [hid] at hv; cases hv
        case true =>
          rw [hid] at hv
          cases hv
          exact ⟨phase, List.mem_singleton_self _, (beq_iff_eq.mp hid).symm, _, rfl, .inr ⟨rfl, hc.right, hc.left, rfl⟩⟩

end Phases

section Slices

variable {word : Char → Bool} {a : Entry} {range r : Range} {value phaseRange : String} {m : ℕ}

theorem trim_le : trim lines n ≤ n := by
  induction n
  case zero => exact le_rfl
  case succ n hi =>
    rw [trim]
    split_ifs
    case pos => exact hi.trans (Nat.le_succ n)
    case neg => exact le_rfl

theorem le_trim (hs : ¬ Blank lines m) (hm : m ≤ n) : m ≤ trim lines n := by
  induction n
  case zero => exact hm
  case succ n hi =>
    rw [trim]
    split_ifs with hb
    case neg => exact hm
    case pos =>
      refine hi (Nat.le_of_lt_succ (lt_of_le_of_ne hm ?_))
      rintro rfl
      exact hs hb

theorem not_blank_trim (h : trim lines n ≠ 0) : ¬ Blank lines (trim lines n) := by
  induction n
  case zero => exact absurd rfl h
  case succ n hi =>
    rw [trim] at h ⊢
    split_ifs at h ⊢ with hb
    case pos => exact hi h
    case neg => exact hb

theorem blank_of_trim_lt {i : ℕ} (h : trim lines n < i) (hi : i ≤ n) : Blank lines i := by
  by_contra hb
  exact absurd (le_trim hb hi) (by omega)

theorem strip_of_anchor (h : anchor word line = some name) : strip line ≠ "" := by
  intro hs
  rw [anchor, hs] at h
  cases h

theorem not_blank_of_anchor (ha : a ∈ sections text) (hl : a.level = 0) (hn : (anchor word a.text).isSome) :
    ¬ Blank (splitlines text) a.number := by
  obtain ⟨name, hn⟩ := Option.isSome_iff_exists.mp hn
  rw [Blank, getD_of_mem ha hl]
  exact strip_of_anchor hn

theorem mem_inside : e ∈ inside text range ↔
    e ∈ sections text ∧ range.first ≤ e.number ∧ e.number ≤ min range.last (splitlines text).length := by
  rw [inside, List.mem_filter, decide_eq_true_iff]

theorem inside_ordered : Ordered (inside text range) :=
  sections_ordered.filter _

-- Between an anchor and the heading that it stands above there is no other anchor.
theorem owner_lt : m ≤ (owner (inside text range) m).1 ∧ ∀ b ∈ inside text range, b.level = 0 → strip b.text ≠ "" →
    m < b.number → (owner (inside text range) m).1 < b.number := by
  rw [owner]
  split
  case h_2 => exact ⟨le_rfl, fun _ _ _ _ hlt => hlt⟩
  case h_1 number level text hf =>
    have hp := List.find?_some hf
    rw [decide_eq_true_iff] at hp
    refine ⟨hp.left.le, fun b hb hl ht hlt => ?_⟩
    have hle := find?_le inside_ordered hf b hb (decide_eq_true ⟨hlt, .inr ht⟩)
    refine lt_of_le_of_ne hle fun he => ?_
    have heq := eq_of_number (mem_inside.mp (List.mem_of_find?_eq_some hf)).left (mem_inside.mp hb).left he
    rw [← heq] at hl
    cases hl

theorem slice_cut {body level : ℕ} (ha : a ∈ inside text range) (hl : a.level = 0) (hn : (anchor word a.text).isSome)
    (hbody : a.number ≤ body) (hlt : ∀ b ∈ inside text range, b.level = 0 → strip b.text ≠ "" →
      a.number < b.number → body < b.number) :
    Slice word text range a (cut word (splitlines text) (inside text range)
      (min range.last (splitlines text).length) a.number body level) := by
  have hm := mem_inside.mp ha
  have hsolid := not_blank_of_anchor hm.left hl hn
  -- Where the range would end if the lines at its end had text.
  have hstop : ∃ n, (cut word (splitlines text) (inside text range) (min range.last (splitlines text).length) a.number body
      level).last = trim (splitlines text) n ∧
      a.number ≤ n ∧ n ≤ min range.last (splitlines text).length ∧
        (n = min range.last (splitlines text).length ∨ ∃ b ∈ sections text, b.number = n + 1 ∧
        (b.level ≠ 0 ∨ (anchor word b.text).isSome)) ∧
      ∀ b ∈ inside text range, b.level = 0 → (anchor word b.text).isSome → a.number < b.number → n < b.number := by
    cases hx : (inside text range).find? fun e => body < e.number ∧ ((anchor word e.text).isSome ∨ 0 < e.level ∧ e.level ≤ level)
    case none =>
      refine ⟨_, by rw [cut, hx]; rfl, hm.right.right, le_rfl, .inl rfl, fun b hb hbl hbn hab => ?_⟩
      obtain ⟨name, hname⟩ := Option.isSome_iff_exists.mp hbn
      have hp := List.find?_eq_none.mp hx b hb
      simp only [decide_eq_true_iff, not_and] at hp
      exact absurd (.inl hbn) (hp (hlt b hb hbl (strip_of_anchor hname) hab))
    case some c =>
      have hp := List.find?_some hx
      rw [decide_eq_true_iff] at hp
      have hc := mem_inside.mp (List.mem_of_find?_eq_some hx)
      have hcn := number_le hc.left
      refine ⟨c.number - 1, by rw [cut, hx]; rfl, by omega, by omega, .inr ⟨c, hc.left, by omega, ?_⟩,
        fun b hb hbl hbn hab => ?_⟩
      case refine_1 =>
        obtain hanchor | hheading := hp.right
        · exact .inr hanchor
        · exact .inl hheading.left.ne'
      case refine_2 =>
        obtain ⟨name, hname⟩ := Option.isSome_iff_exists.mp hbn
        have hbody := hlt b hb hbl (strip_of_anchor hname) hab
        have hle := find?_le inside_ordered hx b hb (decide_eq_true ⟨hbody, .inl hbn⟩)
        omega
  obtain ⟨n, hlastn, han, hnl, hboundary, hbefore⟩ := hstop
  have han' := le_trim hsolid han
  have htrim : trim (splitlines text) n ≤ n := trim_le
  have hpos := (number_le hm.left).left
  constructor
  case first  => rfl
  case le     => rw [hlastn]; exact han'
  case within => exact ⟨hm.right.left, by rw [hlastn]; omega⟩
  case solid  =>
    rw [hlastn]
    exact not_blank_trim (by omega)
  case stop   =>
    refine ⟨n + 1, by rw [hlastn]; omega, fun i hi hin => ?_, ?_⟩
    · rw [hlastn] at hi
      exact blank_of_trim_lt hi (Nat.le_of_lt_succ hin)
    · obtain rfl | hb := hboundary
      · exact .inl rfl
      · exact .inr hb
  case before =>
    intro b hb hbl hbn hab hbr
    have hbs := number_le hb
    have hlt := hbefore b (mem_inside.mpr ⟨hb, by omega, by omega⟩) hbl hbn hab
    rw [hlastn]
    omega

theorem sliceLines_eq (hb : bounds phaseRange = .ok range) (hname : name ≠ "")
    (hx : (inside text range).filter (fun e => anchor word e.text = some name) = [a]) :
    sliceLines word text name phaseRange = .ok (cut word (splitlines text) (inside text range)
      (min range.last (splitlines text).length) a.number (owner (inside text range) a.number).1
      (owner (inside text range) a.number).2).text := by
  rw [sliceLines, if_neg hname, hb]
  dsimp only
  rw [hx]

-- An anchor that a slice is found by is the only one of its name in the range of the phase.
theorem matches_of_sliceLines (hb : bounds phaseRange = .ok range)
    (h : sliceLines word text name phaseRange = .ok value) (ha : a ∈ inside text range)
    (hn : anchor word a.text = some name) :
    name ≠ "" ∧ (inside text range).filter (fun e => anchor word e.text = some name) = [a] := by
  have hm : a ∈ (inside text range).filter fun e => anchor word e.text = some name :=
    List.mem_filter.mpr ⟨ha, decide_eq_true hn⟩
  have hname : name ≠ "" := by
    rintro rfl
    rw [sliceLines, if_pos rfl] at h
    cases h
  refine ⟨hname, ?_⟩
  rw [sliceLines, if_neg hname, hb] at h
  dsimp only at h
  cases hx : (inside text range).filter fun e => anchor word e.text = some name
  case nil =>
    rw [hx] at hm
    cases hm
  case cons e l =>
    rw [hx] at h hm
    cases l
    case nil  => rw [List.mem_singleton.mp hm]
    case cons => cases h

theorem slice_of_sliceLines (hb : bounds phaseRange = .ok range)
    (h : sliceLines word text name phaseRange = .ok value) (ha : a ∈ sections text) (hl : a.level = 0)
    (hn : anchor word a.text = some name) (hr : range.first ≤ a.number ∧ a.number ≤ range.last) :
    ∃ r, value = r.text ∧ Slice word text range a r := by
  have hm : a ∈ inside text range := mem_inside.mpr ⟨ha, hr.left, le_min hr.right (number_le ha).right⟩
  obtain ⟨hname, hx⟩ := matches_of_sliceLines hb h hm hn
  rw [sliceLines_eq hb hname hx] at h
  refine ⟨_, (Except.ok.inj h).symm, ?_⟩
  exact slice_cut hm hl (by rw [hn]; rfl) owner_lt.left owner_lt.right

end Slices

-- The ranges of a plan: its entries are the lines outside of fenced code; a phase has the section of its heading or the
-- plan as a whole; two sections of one level have no line in common; the slice of an anchor lies in the range of its
-- phase, from the anchor to a line with text, and has no line in common with that of another anchor.
theorem plan_ranges (casefold : String → String) (word : Char → Bool) (text : String) :
    (∀ e, e ∈ sections text ↔ ∃ line, Outside (splitlines text) e.number line ∧ e = entry e.number line) ∧
    (∀ phases ranges, phaseLines casefold text phases = .ok ranges →
      (∀ phase ∈ phases, ranges.lookup phase.id ≠ none) ∧
      ∀ id value, ranges.lookup id = some value → ∃ phase ∈ phases, phase.id = id ∧
        ∃ r, value = r.text ∧ bounds value = .ok r ∧ Assigned casefold text phases phase r) ∧
    (∀ e e' r r', Section (sections text) (splitlines text).length e r →
      Section (sections text) (splitlines text).length e' r' → e.level = e'.level → e.number < e'.number →
        r.last < r'.first) ∧
    (∀ phaseRange range name value a, bounds phaseRange = .ok range →
      sliceLines word text name phaseRange = .ok value → a ∈ sections text → a.level = 0 →
      anchor word a.text = some name → range.first ≤ a.number ∧ a.number ≤ range.last →
        ∃ r, value = r.text ∧ bounds value = .ok r ∧ Slice word text range a r) ∧
    ∀ range a a' r r', Slice word text range a r → Slice word text range a' r' → a' ∈ sections text → a'.level = 0 →
      (anchor word a'.text).isSome → a.number < a'.number → r.last < r'.first := by
  refine ⟨fun e => mem_sections, fun phases ranges h => ?_, fun e e' r r' hr hr' hl hlt => ?_,
    fun phaseRange range name value a hb h ha hl hn hr => ?_, fun range a a' r r' hs hs' ha hl hn hlt => ?_⟩
  case refine_1 =>
    have hassigned := phaseLines_assigned h
    refine ⟨hassigned.left, fun id value hv => ?_⟩
    obtain ⟨phase, hp, hid, r, rfl, hr⟩ := hassigned.right id value hv
    refine ⟨phase, hp, hid, r, rfl, ?_, hr⟩
    obtain ⟨e, _, hsec⟩ | ⟨_, _, hne, rfl⟩ := hr
    · exact bounds_text (hsec.first ▸ (number_le hsec.mem).left) hsec.le
    · exact bounds_text le_rfl (List.length_pos_of_ne_nil hne)
  case refine_2 =>
    rw [hr'.first]
    exact hr.before e' hr'.mem hr'.heading hl.ge hlt
  case refine_3 =>
    obtain ⟨r, rfl, hs⟩ := slice_of_sliceLines hb h ha hl hn hr
    exact ⟨r, rfl, bounds_text (hs.first ▸ (number_le ha).left) hs.le, hs⟩
  case refine_4 =>
    rw [hs'.first]
    exact hs.before a' ha hl hn hlt (by rw [← hs'.first]; exact hs'.le.trans hs'.within.right)

-- The only phase of a plan without its heading has a range that starts at no heading, phases of one title have the same
-- range, and a heading whose title reads as an anchor is one without ending the slice before it.
theorem ranges_of_no_heading :
    (headings id (sections "x") "A" = [] ∧
      (phaseLines id "x" [⟨"p", "A"⟩]).toOption.bind (·.lookup "p") = some "1-1") ∧
    ((phaseLines id "# A" [⟨"p", "A"⟩, ⟨"q", "A"⟩]).toOption.bind (·.lookup "p") = some "1-1" ∧
      (phaseLines id "# A" [⟨"p", "A"⟩, ⟨"q", "A"⟩]).toOption.bind (·.lookup "q") = some "1-1") ∧
    sliceLines Char.isAlphanum "<!-- slice: a -->\n# <!-- slice: b -->\nx" "a" "1-3" = .ok "1-3" ∧
      sliceLines Char.isAlphanum "<!-- slice: a -->\n# <!-- slice: b -->\nx" "b" "1-3" = .ok "2-3" := by
  refine ⟨⟨?_, ?_⟩, ⟨?_, ?_⟩, ?_, ?_⟩ <;> rfl

end Plans
