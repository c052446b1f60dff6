import Agentihooks.SessionTools.Listings

-- Whoever follows the cursors of a listing gets its items in order, or is refused; a cursor is good for the request that it
-- was issued for, as long as the row lasts that its first issue wrote.

namespace SessionTools

variable {cursors after : Cursors} {s : State} {e : Event} {es : List Event} {grant : Grant} {asked : Asked}
variable {cursor : CursorField} {found : Listing} {now : ℚ} {id : CursorId} {key : String × CursorId} {row : CursorRow}
variable {answer : Answer} {request : Request} {items : List Item} {p : ℕ}

section Rows

-- A row is what its identifier is the digest of.
def CursorRow.At (row : CursorRow) (key : String × CursorId) : Prop :=
  key = (row.grant.corpus, ⟨row.grant, row.asked, row.position, row.fingerprint⟩)

def Cursors.Sound (cursors : Cursors) : Prop :=
  ∀ key row, cursors.lookup key = some row → row.At key

-- The row that an issue writes where there is none.
def CursorId.written (id : CursorId) (now : ℚ) : CursorRow :=
  ⟨id.grant, id.asked, id.position, id.fingerprint, now + cursorSeconds⟩

theorem lookup_prune {domain : String} : (cursors.prune domain now).lookup key = some row ↔
    cursors.lookup key = some row ∧ ¬ (key.1 = domain ∧ row.expiresAt ≤ now) := by
  rw [Cursors.prune, Finmap.lookup_select_eq_some]

theorem lookup_issue : (cursors.issue grant asked p items now).2.lookup key = some row ↔
    (cursors.prune grant.corpus now).lookup key = some row ∨
      (cursors.prune grant.corpus now).lookup key = none ∧ key = (grant.corpus, ⟨grant, asked, p, items⟩) ∧
        row = CursorId.written ⟨grant, asked, p, items⟩ now := by
  rw [Cursors.issue]
  dsimp only
  generalize cursors.prune grant.corpus now = pruned
  cases hl : pruned.lookup (grant.corpus, ⟨grant, asked, p, items⟩) with
  | some held =>
    rw [if_pos (by rfl), or_iff_left]
    rintro ⟨hn, rfl, _⟩
    rw [hl] at hn
    cases hn
  | none =>
    rw [if_neg (by simp)]
    by_cases hk : key = (grant.corpus, ⟨grant, asked, p, items⟩)
    case pos =>
      subst hk
      rw [Finmap.lookup_insert, hl, Option.some.injEq]
      exact ⟨fun h => .inr ⟨rfl, rfl, h.symm⟩, fun h => h.elim nofun fun h => h.right.right.symm⟩
    case neg =>
      rw [Finmap.lookup_insert_of_ne _ hk, or_iff_left fun h => hk h.right.left]

-- What the position of a cursor takes.
theorem position_id (hs : cursors.Sound) : cursors.position grant asked (.id id) items now = .ok p ↔
    ∃ row, cursors.lookup (grant.corpus, id) = some row ∧ now < row.expiresAt ∧ id = ⟨grant, asked, p, items⟩ := by
  simp only [Cursors.position]
  cases hl : cursors.lookup (grant.corpus, id) with
  | none     => exact ⟨nofun, fun h => by obtain ⟨_, hr, _⟩ := h; cases hr⟩
  | some row =>
    obtain ⟨-, rfl⟩ := Prod.mk.inj (hs _ _ hl)
    simp only [Option.some.injEq, exists_eq_left', CursorId.mk.injEq]
    by_cases hg : row.grant ≠ grant ∨ row.expiresAt ≤ now
    case pos =>
      rw [if_pos hg]
      refine ⟨nofun, fun h => ?_⟩
      obtain hg | hg := hg
      · exact absurd h.right.left hg
      · exact absurd h.left (not_lt.mpr hg)
    case neg =>
      obtain ⟨hg, hnow⟩ := not_or.mp hg
      rw [if_neg (by simp_all)]
      by_cases ha : row.asked ≠ asked
      case pos =>
        rw [if_pos ha]
        exact ⟨nofun, fun h => absurd h.right.right.left ha⟩
      case neg =>
        rw [if_neg ha]
        by_cases hf : row.fingerprint ≠ items
        case pos =>
          rw [if_pos hf]
          exact ⟨nofun, fun h => absurd h.right.right.right.right hf⟩
        case neg =>
          rw [if_neg hf, Except.ok.injEq]
          exact ⟨fun h => ⟨not_le.mp hnow, not_not.mp hg, not_not.mp ha, h, not_not.mp hf⟩, fun h => h.right.right.right.left⟩

end Rows

section Pages

theorem paged_ok : paged cursors grant asked cursor found now = .ok (answer, after) ↔
    ∃ p, cursors.position grant asked cursor found.items now = .ok p ∧
      answer.total = found.items.length ∧ answer.items = (found.items.drop p).take found.limit ∧
        if p + found.limit < found.items.length then
          answer.nextCursor = some ⟨grant, asked, p + found.limit, found.items⟩ ∧
            after = (cursors.issue grant asked (p + found.limit) found.items now).2
        else answer.nextCursor = none ∧ after = cursors := by
  simp only [paged, page]
  cases hp : cursors.position grant asked cursor found.items now with
  | error error => simp [bind, Except.bind]
  | ok p        =>
    simp only [bind, Except.bind, Except.ok.injEq, exists_eq_left']
    by_cases hl : p + found.limit < found.items.length
    case pos =>
      simp only [if_pos hl, Except.ok.injEq, Prod.mk.injEq]
      obtain ⟨total, shown, next⟩ := answer
      simp only [Answer.mk.injEq, Cursors.issue]
      grind
    case neg =>
      simp only [if_neg hl, Except.ok.injEq, Prod.mk.injEq]
      obtain ⟨total, shown, next⟩ := answer
      simp only [Answer.mk.injEq]
      grind

-- The request gets to a page that another one follows.
def Issues (s : State) (request : Request) (id : CursorId) : Prop :=
  ∃ found answer after, listing s.catalog request.grant request.asked = .ok found ∧
    paged s.cursors request.grant request.asked request.cursor found request.now = .ok (answer, after) ∧
      answer.nextCursor = some id

theorem Issues.own (h : Issues s request id) : id.grant = request.grant ∧ id.asked = request.asked := by
  obtain ⟨found, answer, after, _, hp, hn⟩ := h
  obtain ⟨p, _, _, _, hnext⟩ := paged_ok.mp hp
  split at hnext
  case isTrue =>
    rw [hnext.left, Option.some.injEq] at hn
    rw [← hn]
    exact ⟨rfl, rfl⟩
  case isFalse =>
    rw [hnext.left] at hn
    cases hn

theorem ask_of_position (hl : listing s.catalog request.grant request.asked = .ok found)
    (hp : s.cursors.position request.grant request.asked request.cursor found.items request.now = .ok p)
    (hf : request.failure = none) : ∃ answer, (ask s request).2 = .ok answer ∧
      answer.items = (found.items.drop p).take found.limit := by
  have hpaged : ∃ answer after, paged s.cursors request.grant request.asked request.cursor found request.now =
      .ok (answer, after) ∧ answer.items = (found.items.drop p).take found.limit := by
    simp only [paged, hp, page, bind, Except.bind]
    split
    case h_1 he => exact ⟨_, _, rfl, (Prod.mk.inj he).left.symm⟩
    case h_2 he => exact ⟨_, _, rfl, (Prod.mk.inj he).left.symm⟩
  obtain ⟨answer, after, hpaged, hitems⟩ := hpaged
  exact ⟨answer, by simp only [ask, hl, hpaged, hf], hitems⟩

-- A request changes nothing but the row that it issues and those that are over by then.
theorem step_request :
    step s (.request request) = s ∧ (∀ id, ¬ Issues s request id) ∨
      ∃ id, Issues s request id ∧ (step s (.request request)).catalog = s.catalog ∧
        (step s (.request request)).cursors =
          (s.cursors.issue request.grant request.asked id.position id.fingerprint request.now).2 := by
  rw [step, ask]
  cases hl : listing s.catalog request.grant request.asked with
  | error error => exact .inl ⟨rfl, fun id h => by obtain ⟨_, _, _, h, _⟩ := h; rw [hl] at h; cases h⟩
  | ok found    =>
    dsimp only
    cases hp : paged s.cursors request.grant request.asked request.cursor found request.now with
    | error error =>
      refine .inl ⟨rfl, fun id h => ?_⟩
      obtain ⟨_, _, _, h, h', _⟩ := h
      rw [hl, Except.ok.injEq] at h
      rw [← h, hp] at h'
      cases h'
    | ok result =>
      obtain ⟨answer, after⟩ := result
      obtain ⟨p, _, _, _, hnext⟩ := paged_ok.mp hp
      split at hnext
      case isTrue => exact .inr ⟨_, ⟨found, answer, after, hl, hp, hnext.left⟩, rfl, hnext.right⟩
      case isFalse =>
        obtain ⟨hnone, rfl⟩ := hnext
        refine .inl ⟨rfl, fun id h => ?_⟩
        obtain ⟨_, _, _, h, h', hn⟩ := h
        rw [hl, Except.ok.injEq] at h
        rw [← h, hp, Except.ok.injEq, Prod.mk.injEq] at h'
        rw [← h'.left, hnone] at hn
        cases hn

theorem sound_step (h : s.cursors.Sound) : (step s e).cursors.Sound := by
  cases e with
  | change catalog  => exact h
  | request request =>
    obtain ⟨he, _⟩ | ⟨id, hid, _, he⟩ := @step_request s request
    case inl => rwa [he]
    case inr =>
      intro key row hr
      rw [he, lookup_issue, lookup_prune] at hr
      obtain ⟨hr, _⟩ | ⟨_, rfl, rfl⟩ := hr
      · exact h key row hr
      · rfl

theorem sound_run (h : s.cursors.Sound) : (Run.run step s es).cursors.Sound := by
  induction es generalizing s
  case nil     => exact h
  case cons hi => exact hi (sound_step h)

theorem sound_init : init.cursors.Sound := by
  intro key row h
  cases h

theorem ask_ok (h : (ask s request).2 = .ok answer) :
    ∃ found, listing s.catalog request.grant request.asked = .ok found ∧
      paged s.cursors request.grant request.asked request.cursor found request.now =
        .ok (answer, (ask s request).1.cursors) := by
  rw [ask] at h ⊢
  cases hl : listing s.catalog request.grant request.asked with
  | error error =>
    rw [hl] at h
    cases h
  | ok found    =>
    refine ⟨found, rfl, ?_⟩
    simp only [hl] at h ⊢
    cases hp : paged s.cursors request.grant request.asked request.cursor found request.now with
    | error error =>
      rw [hp] at h
      cases h
    | ok result   =>
      obtain ⟨answer', after⟩ := result
      simp only [hp] at h ⊢
      cases hf : request.failure with
      | some error =>
        rw [hf] at h
        cases h
      | none       =>
        rw [hf, Except.ok.injEq] at h
        rw [h]

end Pages

section Follow

-- What others do before a request, the time of the request, and whether its answer fails after all.
structure Turn where
  others  : List Event
  now     : ℚ
  failure : Option Rejected

inductive Outcome
  | complete
  | refused (error : Rejected)
  | unfinished
  deriving DecidableEq

-- The items that a caller gets who follows the cursors.
def follow (grant : Grant) (asked : Asked) : State → CursorField → List Turn → List Item × Outcome
  | _, _, []                => ([], .unfinished)
  | s, cursor, turn :: turns =>
    let s := Run.run step s turn.others
    let request := ⟨grant, asked, cursor, turn.now, turn.failure⟩
    match (ask s request).2 with
    | .error error => ([], .refused error)
    | .ok answer   => match answer.nextCursor with
      | none    => (answer.items, .complete)
      | some id =>
        let more := follow grant asked (ask s request).1 (.id id) turns
        (answer.items ++ more.1, more.2)

-- What is got is the beginning of what is left of a listing; all of it unless the caller is refused or stops.
structure Gets (left : List Item) (turns : ℕ) (got : List Item × Outcome) : Prop where
  inOrder  : got.1 <+: left
  complete : got.2 = .complete → got.1 = left
  ends     : left.length ≤ turns → got.2 ≠ .unfinished

theorem gets_refused {left : List Item} {turns : ℕ} {error : Rejected} : Gets left turns ([], .refused error) :=
  ⟨List.nil_prefix, nofun, nofun⟩

-- A page and what is got after it.
theorem Gets.page {turns limit : ℕ} {more : List Item × Outcome} (hpos : 0 < limit) (hlt : p + limit < items.length)
    (h : Gets (items.drop (p + limit)) turns more) :
    Gets (items.drop p) (turns + 1) ((items.drop p).take limit ++ more.1, more.2) := by
  have hs : (items.drop p).take limit ++ items.drop (p + limit) = items.drop p := by
    rw [← List.drop_drop, List.take_append_drop]
  constructor
  case inOrder =>
    have h := (List.prefix_append_right_inj ((items.drop p).take limit)).mpr h.inOrder
    rwa [hs] at h
  case complete =>
    intro hc
    rw [h.complete hc, hs]
  case ends =>
    intro hl
    refine h.ends ?_
    rw [List.length_drop] at hl ⊢
    omega

theorem gets_last {turns limit : ℕ} (hle : items.length ≤ p + limit) :
    Gets (items.drop p) turns ((items.drop p).take limit, .complete) := by
  rw [List.take_of_length_le (by rw [List.length_drop]; omega)]
  exact ⟨List.prefix_rfl, fun _ => rfl, nofun⟩

-- One request from a position on, where the cursors after it are followed.
theorem gets_ask {turns : List Turn} {left : List Item} (hleft : left = found.items.drop p)
    (hask : (ask s request).2 = .ok answer) (hl : listing s.catalog request.grant request.asked = .ok found)
    (hp : s.cursors.position request.grant request.asked request.cursor found.items request.now = .ok p)
    (hi : p + found.limit < found.items.length → Gets (found.items.drop (p + found.limit)) turns.length
      (follow request.grant request.asked (ask s request).1
        (.id ⟨request.grant, request.asked, p + found.limit, found.items⟩) turns)) :
    Gets left (turns.length + 1) (match answer.nextCursor with
      | none    => (answer.items, .complete)
      | some id =>
        let more := follow request.grant request.asked (ask s request).1 (.id id) turns
        (answer.items ++ more.1, more.2)) := by
  subst hleft
  obtain ⟨found', hl', hpaged⟩ := ask_ok hask
  rw [hl, Except.ok.injEq] at hl'
  subst hl'
  obtain ⟨p', hp', _, hitems, hnext⟩ := paged_ok.mp hpaged
  rw [hp, Except.ok.injEq] at hp'
  subst hp'
  by_cases hlt : p + found.limit < found.items.length
  case pos =>
    rw [if_pos hlt] at hnext
    rw [hnext.left, hitems]
    exact (hi hlt).page found.pos hlt
  case neg =>
    rw [if_neg hlt] at hnext
    rw [hnext.left, hitems]
    exact gets_last (not_lt.mp hlt)

theorem sound_ask (h : s.cursors.Sound) : (ask s request).1.cursors.Sound :=
  @sound_step s (.request request) h

theorem gets_follow {turns : List Turn} (hs : s.cursors.Sound) (hlt : p < items.length) :
    Gets (items.drop p) turns.length (follow grant asked s (.id ⟨grant, asked, p, items⟩) turns) := by
  induction turns generalizing s p with
  | nil =>
    refine ⟨List.nil_prefix, nofun, fun h => ?_⟩
    rw [List.length_drop, List.length_nil] at h
    omega
  | cons turn turns hi =>
    rw [follow]
    have hs := @sound_run s turn.others hs
    generalize Run.run step s turn.others = s at *
    dsimp only
    generalize hreq : (⟨grant, asked, .id ⟨grant, asked, p, items⟩, turn.now, turn.failure⟩ : Request) = request
    cases hask : (ask s request).2 with
    | error error => exact gets_refused
    | ok answer   =>
      obtain ⟨found, hl, hpaged⟩ := ask_ok hask
      obtain ⟨p', hp, _⟩ := paged_ok.mp hpaged
      subst hreq
      obtain ⟨_, _, _, he⟩ := (position_id hs).mp hp
      obtain ⟨-, -, rfl, rfl⟩ := CursorId.mk.inj he
      exact gets_ask rfl hask hl hp fun hlt => hi (sound_ask hs) hlt

-- A caller who starts without a cursor.
theorem gets_first {turns : List Turn} {turn : Turn} (hs : s.cursors.Sound) :
    (∃ error, follow grant asked s .none (turn :: turns) = ([], .refused error)) ∨
      ∃ found, listing (Run.run step s turn.others).catalog grant asked = .ok found ∧
        Gets found.items (turns.length + 1) (follow grant asked s .none (turn :: turns)) := by
  rw [follow]
  have hs := @sound_run s turn.others hs
  generalize Run.run step s turn.others = s at *
  dsimp only
  generalize hreq : (⟨grant, asked, .none, turn.now, turn.failure⟩ : Request) = request
  cases hask : (ask s request).2 with
  | error error => exact .inl ⟨error, rfl⟩
  | ok answer   =>
    obtain ⟨found, hl, _⟩ := ask_ok hask
    subst hreq
    refine .inr ⟨found, hl, gets_ask (p := 0) rfl hask hl rfl fun hlt => gets_follow (sound_ask hs) hlt⟩

end Follow

section Lifetime

-- A request of the run issued the cursor, and a row that it wrote lasts from then.
def IssuedIn (es : List Event) (id : CursorId) (expiresAt : ℚ) : Prop :=
  ∃ before request after, es = before ++ .request request :: after ∧ Issues (Run.run step init before) request id ∧
    expiresAt = request.now + cursorSeconds

theorem IssuedIn.concat {expiresAt : ℚ} (h : IssuedIn es id expiresAt) : IssuedIn (es ++ [e]) id expiresAt := by
  obtain ⟨before, request, after, rfl, hissues, hexpires⟩ := h
  exact ⟨before, request, after ++ [e], by simp, hissues, hexpires⟩

theorem issued_of_lookup (h : (Run.run step init es).cursors.lookup key = some row) :
    IssuedIn es key.2 row.expiresAt := by
  induction es using List.reverseRecOn with
  | nil => cases h
  | append_singleton es e hi =>
    rw [Run.run_concat] at h
    cases e with
    | change catalog  => exact (hi h).concat
    | request request =>
      obtain ⟨he, _⟩ | ⟨id, hid, _, he⟩ := @step_request (Run.run step init es) request
      case inl => exact (hi (he ▸ h)).concat
      case inr =>
        rw [he, lookup_issue, lookup_prune] at h
        obtain ⟨h, _⟩ | ⟨_, rfl, rfl⟩ := h
        case inl => exact (hi h).concat
        case inr =>
          have hown := hid.own
          rw [← hown.left, ← hown.right]
          exact ⟨es, request, [], rfl, hid, rfl⟩

-- No request of the domain issues a cursor at or past the time.
def Before (domain : String) (time : ℚ) (s : State) : Event → Prop
  | .request request => request.grant.corpus = domain → time ≤ request.now → ∀ id, ¬ Issues s request id
  | .change _        => True

theorem Before.lookup (h : Before key.1 row.expiresAt s e) (hr : s.cursors.lookup key = some row) :
    (step s e).cursors.lookup key = some row := by
  cases e with
  | change catalog  => exact hr
  | request request =>
    obtain ⟨he, _⟩ | ⟨id, hid, _, he⟩ := @step_request s request
    case inl => rwa [he]
    case inr =>
      rw [he, lookup_issue, lookup_prune]
      refine .inl ⟨hr, fun hover => h hover.left.symm hover.right id hid⟩

theorem lookup_run (h : Run.Along step (Before key.1 row.expiresAt) s es) (hr : s.cursors.lookup key = some row) :
    (Run.run step s es).cursors.lookup key = some row :=
  h.invariant (I := fun s => s.cursors.lookup key = some row) (fun _ _ hi hp => hp.lookup hi) hr

-- The cursor has no row, or one that is over by now.
def Lapsed (s : State) (domain : String) (id : CursorId) (now : ℚ) : Prop :=
  ∀ row, s.cursors.lookup (domain, id) = some row → row.expiresAt ≤ now

theorem lookup_of_lapsed (h : Issues s request id) (hl : Lapsed s request.grant.corpus id request.now) :
    (step s (.request request)).cursors.lookup (request.grant.corpus, id) = some (id.written request.now) := by
  obtain ⟨_, hn⟩ | ⟨id', hid, _, he⟩ := @step_request s request
  case inl => exact absurd h (hn id)
  case inr =>
    obtain rfl : id = id' := by
      obtain ⟨found, answer, after, hl, hp, hn⟩ := h
      obtain ⟨found', answer', after', hl', hp', hn'⟩ := hid
      rw [hl, Except.ok.injEq] at hl'
      rw [← hl', hp, Except.ok.injEq, Prod.mk.injEq] at hp'
      rw [← hp'.left, hn, Option.some.injEq] at hn'
      exact hn'
    obtain ⟨grant, asked, position, fingerprint⟩ := id
    obtain ⟨rfl, rfl⟩ := h.own
    rw [he, lookup_issue]
    refine .inr ⟨?_, rfl, rfl⟩
    rw [Option.eq_none_iff_forall_ne_some]
    intro row hr
    rw [lookup_prune] at hr
    exact hr.right ⟨rfl, hl row hr.left⟩

-- What holds of the cursors after a run.
structure Paged (es : List Event) : Prop where
  followed : ∀ grant asked turn turns, let s := Run.run step init es
    (∃ error, follow grant asked s .none (turn :: turns) = ([], .refused error)) ∨
      ∃ found, listing (Run.run step s turn.others).catalog grant asked = .ok found ∧
        Gets found.items (turns.length + 1) (follow grant asked s .none (turn :: turns))
  bound    : ∀ request id answer, request.cursor = .id id → (ask (Run.run step init es) request).2 = .ok answer →
    id.grant = request.grant ∧ id.asked = request.asked ∧
      ∃ expiresAt, request.now < expiresAt ∧ IssuedIn es id expiresAt
  lasting  : ∀ before first after id, es = before ++ .request first :: after →
    Issues (Run.run step init before) first id →
      Lapsed (Run.run step init before) first.grant.corpus id first.now →
        Run.Along step (Before first.grant.corpus (first.now + cursorSeconds))
            (Run.run step init (before ++ [.request first])) after →
          ∀ request found, request.grant = id.grant → request.asked = id.asked → request.cursor = .id id →
            request.failure = none → request.now < first.now + cursorSeconds →
              listing (Run.run step init es).catalog request.grant request.asked = .ok found →
                found.items = id.fingerprint → ∃ answer, (ask (Run.run step init es) request).2 = .ok answer ∧
                  answer.items = (found.items.drop id.position).take found.limit

theorem lookup_lasting {before after : List Event} {first : Request}
    (hissues : Issues (Run.run step init before) first id)
    (hl : Lapsed (Run.run step init before) first.grant.corpus id first.now)
    (h : Run.Along step (Before first.grant.corpus (first.now + cursorSeconds))
      (Run.run step init (before ++ [.request first])) after) :
    (Run.run step init (before ++ .request first :: after)).cursors.lookup (first.grant.corpus, id) =
      some (id.written first.now) := by
  rw [List.append_cons, Run.run_append]
  refine @lookup_run _ _ (first.grant.corpus, id) (id.written first.now) h ?_
  rw [Run.run_concat]
  exact lookup_of_lapsed hissues hl

theorem listings_paged (es : List Event) : Paged es where
  followed _ _ _ _ := gets_first (sound_run sound_init)
  bound request id answer hc h := by
    obtain ⟨found, _, hpaged⟩ := ask_ok h
    obtain ⟨p, hp, _⟩ := paged_ok.mp hpaged
    rw [hc, position_id (sound_run sound_init)] at hp
    obtain ⟨row, hr, hnow, rfl⟩ := hp
    exact ⟨rfl, rfl, row.expiresAt, hnow, issued_of_lookup hr⟩
  lasting before first after id he hissues hl h request found hg ha hc hf hnow hlisting hitems := by
    subst he
    have hrow := lookup_lasting hissues hl h
    refine ask_of_position hlisting ?_ hf
    rw [hg, ha, hc, hitems, position_id (sound_run sound_init), hissues.own.left]
    exact ⟨_, hrow, hnow, by rw [← hissues.own.left]⟩

-- Two sessions of one project, listed one to a page.
def shelf : Catalog where
  sessions := [⟨"corpus", "b", "claude", "retained"⟩, ⟨"corpus", "a", "codex", "retained"⟩]
  events   := [⟨"corpus", "a", "1", "e1", 1, some "p", "h1"⟩, ⟨"corpus", "b", "1", "e2", 1, some "p", "h2"⟩]

def lists (principal : String) (cursor : CursorField) (now : ℚ) : Request :=
  ⟨⟨principal, "corpus", {"p"}⟩, .sessions "2.0" "corpus" none (some 1), cursor, now, none⟩

def second (principal : String) : CursorId :=
  ⟨⟨principal, "corpus", {"p"}⟩, .sessions "2.0" "corpus" none (some 1), 1, [("a", "codex"), ("b", "claude")]⟩

example : (follow ⟨"x", "corpus", {"p"}⟩ (.sessions "2.0" "corpus" none (some 1)) ⟨shelf, ∅⟩ .none
    [⟨[], 0, none⟩, ⟨[.request (lists "y" .none 5)], 6, none⟩]) = ([("a", "codex"), ("b", "claude")], .complete) := by
  decide +kernel

-- A cursor that is issued again at 600 is refused at 901, and one that is issued at 0 is refused at 10 where another caller
-- has read the clock as 900.
theorem cursor_refused :
    ((ask (Run.run step init [.change shelf, .request (lists "x" .none 0)]) (lists "x" .none 600)).2 =
        .ok ⟨2, [("a", "codex")], some (second "x")⟩ ∧
      (ask (Run.run step init [.change shelf, .request (lists "x" .none 0), .request (lists "x" .none 600)])
        (lists "x" (.id (second "x")) 901)).2 = .error .cursorExpired) ∧
    (ask (Run.run step init [.change shelf]) (lists "x" .none 0)).2 = .ok ⟨2, [("a", "codex")], some (second "x")⟩ ∧
      (ask (Run.run step init [.change shelf, .request (lists "x" .none 0), .request (lists "y" .none 900)])
        (lists "x" (.id (second "x")) 10)).2 = .error .cursorExpired := by
  decide +kernel

end Lifetime

end SessionTools
