import Agentihooks.Events.Subjects

-- The first two tokens of what is built for a swarm are a family and the swarm, and no wildcards.

namespace Subjects

variable {a b s p t swarm token kind logical name : String} {l want have' : List String}

-- The rule of NATS: a star stands for any one token, and `>` at the end for any tokens but none.
inductive Matches : List String → List String → Prop
  | done : Matches [] []
  | same {want have' : List String} (token : String) : Matches want have' → Matches (token :: want) (token :: have')
  | star {want have' : List String} (token : String) : Matches want have' → Matches ("*" :: want) (token :: have')
  | rest {have' : List String} : have' ≠ [] → Matches [">"] have'

-- What is built for a swarm: a subject or a filter.
inductive Built (swarm : String) : String → Prop
  | plain {l : List String} {s : String} : subject swarm l = .ok s → Built swarm s
  | slot {hive s : String} : slotRequest swarm hive = .ok s → Built swarm s
  | request {s : String} : isToken swarm → inSwarm swarm s → Built swarm s
  | log {kind logical s : String} : scopedSubject swarm kind logical = .ok s → Built swarm s
  | work {name s f : String} : queueNames swarm name = .ok (s, f) → Built swarm s
  | queue {name s f : String} : queueNames swarm name = .ok (s, f) → Built swarm f
  | state {bucket key s : String} : stateSubject swarm bucket key = .ok s → Built swarm s
  | bucket {bucket s : String} : bucketFilter swarm bucket = .ok s → Built swarm s
  | family {family s : String} : familyFilter swarm family = .ok s → Built swarm s
  | dead : isToken swarm → Built swarm (dot "dead" swarm)
  | letter (id : String) : isToken swarm → Built swarm (dot (dot "dead" swarm) id)

theorem tokens_dot : tokens (dot a b) = tokens a ++ tokens b := by
  have h : (dot a b).toList = a.toList ++ '.' :: b.toList := by simp [dot]
  rw [tokens, h, List.splitOn_append_cons_self, List.map_append]
  rfl

theorem tokens_of_isToken (h : isToken t) : tokens t = [t] := by
  rw [isToken, decide_eq_true_iff] at h
  have hd : '.' ∉ t.toList := by
    intro hm
    have hc := List.all_eq_true.mp h.right '.' hm
    simp at hc
  rw [tokens, List.splitOn_eq_singleton hd]
  simp

theorem ne_of_isToken (h : isToken t) : t ≠ "*" ∧ t ≠ ">" := by
  constructor <;>
  · rintro rfl
    exact absurd h (by decide)

theorem tokens_joined (h : joined t l = .ok s) : tokens s = tokens t ++ l ∧ ∀ token ∈ l, isToken token := by
  induction l generalizing t
  case nil =>
    cases h
    exact ⟨(List.append_nil _).symm, List.forall_mem_nil _⟩
  case cons token l hi =>
    rw [joined] at h
    split_ifs at h with ht
    obtain ⟨hs, hl⟩ := hi h
    refine ⟨?_, List.forall_mem_cons.mpr ⟨ht, hl⟩⟩
    rw [hs, tokens_dot, tokens_of_isToken ht, List.append_assoc]
    rfl

-- The tokens of a text that is built for a swarm begin with one of the families and the swarm.
def Owned (swarm s : String) : Prop :=
  isToken swarm ∧ ∃ family ∈ ["swarm", "slots", "dead"], ∃ rest, tokens s = family :: swarm :: rest

theorem owned_subject (h : subject swarm l = .ok s) : Owned swarm s := by
  rw [subject] at h
  split_ifs at h
  obtain ⟨hs, hl⟩ := tokens_joined h
  exact ⟨hl swarm List.mem_cons_self, "swarm", by simp, l, hs⟩

theorem Owned.dot (h : Owned swarm a) : Owned swarm (dot a b) := by
  obtain ⟨hs, family, hf, rest, ha⟩ := h
  exact ⟨hs, family, hf, rest ++ tokens b, by rw [tokens_dot, ha]; rfl⟩

theorem owned_startsWith {family : String} (hs : isToken swarm) (hf : family ∈ ["swarm", "slots", "dead"])
    (h : startsWith s (Subjects.dot (Subjects.dot family swarm) "")) : Owned swarm s := by
  obtain ⟨rest, hr⟩ := List.isPrefixOf_iff_prefix.mp h
  have he : s = Subjects.dot (Subjects.dot family swarm) (.ofList rest) := by
    refine String.toList_inj.mp ?_
    rw [← hr]
    simp [Subjects.dot]
  have hfam : isToken family := by
    simp only [List.mem_cons, List.not_mem_nil, or_false] at hf
    obtain rfl | rfl | rfl := hf <;> decide
  refine ⟨hs, family, hf, tokens (.ofList rest), ?_⟩
  rw [he, tokens_dot, tokens_dot, tokens_of_isToken hfam, tokens_of_isToken hs]
  rfl

theorem Built.owned (h : Built swarm s) : Owned swarm s := by
  have hmap {x : Except Failure String} {f : String → String} {s : String} (hx : x.map f = .ok s) :
      ∃ base, x = .ok base ∧ f base = s := by
    cases x
    case error => cases hx
    case ok base =>
      cases hx
      exact ⟨base, rfl, rfl⟩
  have hqueue {name s f : String} (hq : queueNames swarm name = .ok (s, f)) : Owned swarm s ∧ Owned swarm f := by
    rw [queueNames] at hq
    split at hq
    case h_1 => cases hq
    case h_2 lane _ =>
      cases hb : subject swarm ["queue", lane]
      case error => rw [hb] at hq; cases hq
      case ok base =>
        rw [hb] at hq
        cases hq
        exact ⟨(owned_subject hb).dot, (owned_subject hb).dot⟩
  cases h
  case plain h => exact owned_subject h
  case slot hive h =>
    obtain ⟨hs, hl⟩ := tokens_joined h
    exact ⟨hl swarm List.mem_cons_self, "slots", by simp, [hive], hs⟩
  case request hs h =>
    obtain h | h := Bool.or_eq_true_iff.mp h
    · exact owned_startsWith hs (by simp) h
    · exact owned_startsWith hs (by simp) h
  case log kind logical h =>
    rw [scopedSubject] at h
    split at h
    case h_1 => cases h
    case h_2 base hb =>
      obtain ⟨_, _, rfl⟩ := hmap h
      exact (owned_subject hb).dot
  case work h  => exact (hqueue h).left
  case queue h => exact (hqueue h).right
  case state h => exact owned_subject h
  case bucket h =>
    obtain ⟨base, hb, rfl⟩ := hmap h
    exact (owned_subject hb).dot
  case family h =>
    obtain ⟨base, hb, rfl⟩ := hmap h
    exact (owned_subject hb).dot
  case dead hs =>
    refine ⟨hs, "dead", by simp, [], ?_⟩
    rw [tokens_dot, tokens_of_isToken hs]
    rfl
  case letter id hs =>
    refine ⟨hs, "dead", by simp, tokens id, ?_⟩
    rw [tokens_dot, tokens_dot, tokens_of_isToken hs]
    rfl

theorem matchTokens_rest : matchTokens (">" :: want) have' = !have'.isEmpty := by
  cases have' <;> simp [matchTokens]

theorem matchTokens_nil : matchTokens (token :: want) [] = false := by
  simp [matchTokens]

theorem matchTokens_cons {first : String} (h : token ≠ ">") :
    matchTokens (token :: want) (first :: have') = (decide (token = "*" ∨ token = first) && matchTokens want have') := by
  simp [matchTokens, h]

theorem Matches.ne_nil (h : Matches want have') (hw : want ≠ []) : have' ≠ [] := by
  cases h
  case done   => exact absurd rfl hw
  case same   => exact List.cons_ne_nil _ _
  case star   => exact List.cons_ne_nil _ _
  case rest h => exact h

-- Without a `>` before its end, a pattern matches by the rule.
theorem matchTokens_iff (h : ">" ∉ want.dropLast) : matchTokens want have' = true ↔ Matches want have' := by
  induction want generalizing have'
  case nil =>
    rw [matchTokens, List.isEmpty_iff]
    constructor
    case mp =>
      rintro rfl
      exact .done
    case mpr =>
      intro hm
      cases hm
      rfl
  case cons token want hi =>
    by_cases ht : token = ">"
    case pos =>
      subst ht
      obtain rfl : want = [] := by
        by_contra hne
        rw [List.dropLast_cons_of_ne_nil hne] at h
        exact h List.mem_cons_self
      rw [matchTokens_rest, Bool.not_eq_true', List.isEmpty_eq_false_iff]
      constructor
      case mp  => exact .rest
      case mpr => exact fun hm => hm.ne_nil (List.cons_ne_nil _ _)
    case neg =>
      have hw : ">" ∉ want.dropLast := by
        intro hm
        have hne : want ≠ [] := by
          rintro rfl
          cases hm
        rw [List.dropLast_cons_of_ne_nil hne] at h
        exact h (List.mem_cons_of_mem _ hm)
      cases have'
      case nil =>
        rw [matchTokens_nil]
        constructor
        case mp  => exact fun hm => by cases hm
        case mpr => exact fun hm => absurd rfl (hm.ne_nil (List.cons_ne_nil _ _))
      case cons first have' =>
        rw [matchTokens_cons ht, Bool.and_eq_true, decide_eq_true_iff, hi hw]
        constructor
        case mp =>
          rintro ⟨rfl | rfl, hm⟩
          · exact .star first hm
          · exact .same _ hm
        case mpr =>
          intro hm
          cases hm
          case same hm => exact ⟨.inr rfl, hm⟩
          case star hm => exact ⟨.inl rfl, hm⟩
          case rest    => exact absurd rfl ht

-- What is after a `>` is not read.
theorem matchTokens_append (l want : List String) :
    matchTokens (l ++ ">" :: want) have' = matchTokens (l ++ [">"]) have' := by
  induction l generalizing have'
  case nil => rw [List.nil_append, List.nil_append, matchTokens_rest, matchTokens_rest]
  case cons token l hi =>
    rw [List.cons_append, List.cons_append]
    by_cases ht : token = ">"
    case pos => rw [ht, matchTokens_rest, matchTokens_rest]
    case neg =>
      cases have'
      case nil             => rw [matchTokens_nil, matchTokens_nil]
      case cons first have' => rw [matchTokens_cons ht, matchTokens_cons ht, hi]

-- No pattern that is built for a swarm matches what is built for another one. A pattern with no `>` before its end
-- matches by the rule, and any other one as if it ended with its first `>`.
theorem swarms_isolated : (∀ x y s p, Built x s → Built y p → x ≠ y → subjectMatches p s = false) ∧
    (∀ want have', ">" ∉ want.dropLast → (matchTokens want have' = true ↔ Matches want have')) ∧
    ∀ l want have', ">" ∉ l → (matchTokens (l ++ ">" :: want) have' = true ↔ Matches (l ++ [">"]) have') := by
  refine ⟨fun x y s p hs hp hne => ?_, fun want have' h => matchTokens_iff h, fun l want have' h => ?_⟩
  case refine_1 =>
    obtain ⟨hx, family, hf, rest, hs⟩ := hs.owned
    obtain ⟨hy, family', hf', rest', hp⟩ := hp.owned
    have hw : family' ≠ ">" := by
      simp only [List.mem_cons, List.not_mem_nil, or_false] at hf'
      obtain rfl | rfl | rfl := hf' <;> decide
    rw [subjectMatches, hs, hp, matchTokens_cons hw, matchTokens_cons (ne_of_isToken hy).right]
    simp [Ne.symm hne, (ne_of_isToken hy).left]
  case refine_2 =>
    rw [matchTokens_append, matchTokens_iff]
    rwa [List.dropLast_concat]

-- A pattern with a `>` in its middle matches, where the rule has no wildcard.
theorem inner_rest_matches : matchTokens [">", "a"] ["b"] = true ∧ ¬ Matches [">", "a"] ["b"] := by
  have h (want have' : List String) (hm : Matches want have') (hw : want = [">", "a"]) : have'.head? = some ">" := by
    cases hm
    case same token _ => rw [List.head?_cons, (List.cons.inj hw).left]
    case star         => exact absurd (List.cons.inj hw).left (by decide)
    case rest         => cases hw
    case done         => cases hw
  exact ⟨rfl, fun hm => absurd (h _ _ hm rfl) (by decide)⟩

end Subjects
