import Mathlib.Tactic.IntervalCases
import Agentihooks.Ledger.Theorems.Hierarchy

-- Reading the index: the subtree of the whole ledger is its nodes from the top down, and the dependents of a node are
-- what reaches it, each at its distance.

namespace Hierarchy

variable {t : Tables} {state : State} {n n' : Node} {id id' : String} {m p q : ℕ} {b b' : Branch}

-- The outline, as the ledger means it.

def Ahead (n n' : Node) : Prop :=
  n.kind.order < n'.kind.order ∨ n.kind.order = n'.kind.order ∧ n.position ≤ n'.position

instance (n n' : Node) : Decidable (Ahead n n') :=
  inferInstanceAs (Decidable (_ ∨ _ ∧ _))

-- The nodes with a property, in kind and position order.
def inOrder (t : Tables) (p : Node → Prop) [DecidablePred p] : List (String × Node) :=
  (t.nodes.toList.filter fun x => p x.2).insertionSort fun x y => Ahead x.2 y.2

def under (t : Tables) (r : Row) : List Row :=
  (inOrder t fun n => n.parent = some r.node).map fun x => row x (r.depth + 1)

-- Each node is followed by what is below it, down to the bound, before the next node of its own parent.
def outline (t : Tables) : List Row :=
  (inOrder t (Root t none)).flatMap fun x => Rounds.visit (under t) levels (row x 0)

-- The parents of a node come to one that has none, or none in the table, after `d` steps.
def Ends (t : Tables) : ℕ → String → Prop
  | 0,     id => ∃ n, t.nodes.lookup id = some n ∧ Root t none n
  | d + 1, id => ∃ n p, t.nodes.lookup id = some n ∧ n.parent = some p ∧ Ends t d p

-- `id` reaches `node` over `k` dependencies.
def Walk (t : Tables) : ℕ → String → String → Prop
  | 0,     id, node => id = node
  | k + 1, id, node => ∃ other, Walk t k id other ∧ (other, node) ∈ t.dependencies

section Digits

-- `p` in `m` digits.
def digits : ℕ → ℕ → List Char
  | 0,     _ => []
  | m + 1, p => digits m (p / 10) ++ [(p % 10).digitChar]

theorem length_digits : (digits m p).length = m := by
  induction m generalizing p
  case zero => rfl
  case succ m hi => simp [digits, hi]

theorem digits_zero : digits m 0 = List.replicate m '0' := by
  induction m
  case zero => rfl
  case succ m hi =>
    rw [List.replicate_succ', digits, hi]
    rfl

theorem leftpad_toDigits (hp : p < 10 ^ (m + 1)) : (Nat.toDigits 10 p).leftpad (m + 1) '0' = digits (m + 1) p := by
  induction m generalizing p
  case zero =>
    have ht : p < 10 := hp
    rw [Nat.toDigits_of_lt_base ht, digits, Nat.mod_eq_of_lt ht]
    rfl
  case succ m hi =>
    by_cases ht : p < 10
    case pos =>
      rw [Nat.toDigits_of_lt_base ht, digits, Nat.div_eq_of_lt ht, digits_zero, Nat.mod_eq_of_lt ht]
      rfl
    case neg =>
      have hq : p / 10 < 10 ^ (m + 1) := by omega
      rw [Nat.toDigits_of_base_le (by decide) (Nat.not_lt.mp ht), digits, ← hi hq]
      simp [List.leftpad]

theorem digitChar_lt {a b : ℕ} (hb : b < 10) (h : a < b) : a.digitChar < b.digitChar := by
  have ha := h.trans hb
  interval_cases b <;> interval_cases a <;> decide

-- Texts of one length are compared before what follows them.
theorem append_lt {x y : List Char} (hl : x.length = y.length) (h : x < y) (u v : List Char) : x ++ u < y ++ v := by
  induction h
  case nil     => cases hl
  case cons hi => exact .cons (hi (Nat.succ.inj hl))
  case rel h   => exact .rel h

theorem digits_lt (hq : q < 10 ^ m) (h : p < q) : digits m p < digits m q := by
  induction m generalizing p q
  case zero => omega
  case succ m hi =>
    have hl : q / 10 < 10 ^ m := by omega
    by_cases hd : p / 10 < q / 10
    case pos => exact append_lt (length_digits.trans length_digits.symm) (hi hl hd) _ _
    case neg =>
      have he : p / 10 = q / 10 := by omega
      rw [digits, digits, he]
      exact List.Lex.append_left _ (.rel (digitChar_lt (by omega) (by omega))) _

end Digits

section Keys

def key (n : Node) : List Char :=
  n.kind.order.digitChar :: '.' :: digits 9 n.position

theorem toList_order (h : n.position < 10 ^ 9) : (order n).toList = key n := by
  have hk : n.kind.order < 10 := by cases n.kind <;> decide
  rw [order, String.toList_ofList, leftpad_toDigits h, Nat.toDigits_of_lt_base hk]
  rfl

theorem length_key : (key n).length = 11 := by
  simp [key, length_digits]

theorem key_lt (h : n'.position < 10 ^ 9) (ha : Ahead n n') (hn : ¬ Ahead n' n) : key n < key n' := by
  have hk : n'.kind.order < 10 := by cases n'.kind <;> decide
  obtain ha | ⟨he, hp⟩ := ha
  · exact .rel (digitChar_lt hk ha)
  · rw [key, key, he]
    refine .cons (.cons (digits_lt h ?_))
    exact lt_of_le_of_ne hp fun hq => hn (.inr ⟨he.symm, hq.ge⟩)

-- What the texts of the index rest on.
structure Placed (t : Tables) : Prop where
  injective : ∀ {id id' n n'}, t.nodes.lookup id = some n → t.nodes.lookup id' = some n' → Ahead n n' → Ahead n' n → id = id'
  bounded   : ∀ {id n}, t.nodes.lookup id = some n → n.position < 10 ^ 9

theorem Holds.placed (h : Holds t (project state)) (hb : ∀ kind, (items state kind).length < 10 ^ 9) : Placed t where
  injective {id id' n n'} hn hn' ha ha' := by
    obtain ⟨item, x, hi, hx, he⟩ := (projected state).sourced id n (h.nodes id ▸ hn)
    obtain ⟨item', x', hi', hx', he'⟩ := (projected state).sourced id' n' (h.nodes id' ▸ hn')
    have hk : n.kind.order = n'.kind.order := by unfold Ahead at ha ha'; omega
    have hk : n.kind = n'.kind := by revert hk; cases n.kind <;> cases n'.kind <;> decide
    have hp : n.position = n'.position := by unfold Ahead at ha ha'; omega
    rw [hk, hp] at hi
    cases hi.symm.trans hi'
    cases hx.symm.trans hx'
    rw [he, he', hk]
  bounded {id n} hn := by
    obtain ⟨_, _, hi, _⟩ := (projected state).sourced id n (h.nodes id ▸ hn)
    exact (List.getElem?_eq_some_iff.mp hi).choose.trans (hb n.kind)

instance total_ahead : Std.Total fun x y : String × Node => Ahead x.2 y.2 :=
  ⟨fun x y => by unfold Ahead; omega⟩

instance trans_ahead : IsTrans (String × Node) fun x y => Ahead x.2 y.2 :=
  ⟨fun x y z h h' => by unfold Ahead at *; omega⟩

variable {P : Node → Prop} [DecidablePred P]

theorem mem_inOrder {x : String × Node} : x ∈ inOrder t P ↔ t.nodes.lookup x.1 = some x.2 ∧ P x.2 := by
  simp [inOrder, ← KeyTable.mem_toList]

theorem inOrder_pairwise (h : Placed t) : (inOrder t P).Pairwise fun x y => key x.2 < key y.2 := by
  have hd : (inOrder t P).Pairwise fun x y => x ≠ y :=
    ((List.perm_insertionSort _ _).nodup_iff.mpr ((KeyTable.nodup_toList.of_map _).filter _))
  refine ((List.pairwise_insertionSort _ _).and hd).imp_of_mem fun {x y} hx hy hr => ?_
  have hx := (mem_inOrder.mp hx).left
  have hy := (mem_inOrder.mp hy).left
  refine key_lt (h.bounded hy) hr.left fun ha => hr.right ?_
  have he := h.injective hx hy hr.left ha
  rw [he] at hx
  exact Prod.ext he (Option.some.inj (hx.symm.trans hy))

end Keys

section Order

variable (h : Placed t)

def belowInOrder (t : Tables) (b : Branch) : List Branch :=
  if b.depth < levels then (inOrder t fun n => n.parent = some b.id).map b.child else []

def top (x : String × Node) : Branch :=
  ⟨x.1, x.2, 0, order x.2⟩

theorem below_perm (b : Branch) : (below t b).Perm (belowInOrder t b) := by
  unfold below belowInOrder
  split_ifs
  case pos => exact ((List.perm_insertionSort _ _).map _).symm
  case neg => exact .refl _

theorem roots_perm : (roots t none).Perm ((inOrder t (Root t none)).map top) := by
  have he : roots t none = (t.nodes.toList.filter fun x => Root t none x.2).map top := by simp [roots, top]
  rw [he]
  exact ((List.perm_insertionSort _ _).map _).symm

theorem tree_perm : (Rounds.all (below t) levels (roots t none)).Perm
    (((inOrder t (Root t none)).map top).flatMap (Rounds.visit (belowInOrder t) levels)) :=
  (Rounds.all_perm below_perm).trans (roots_perm.flatMap_right _)

-- `b` is the row or lies below it, as their texts tell.
def Within (a b : Branch) : Prop :=
  a.sort.toList <+: b.sort.toList

theorem within_lt {u : List Char} {x y : String × Node} {a c : Branch} (hk : key x.2 < key y.2)
    (ha : u ++ key x.2 <+: a.sort.toList) (hc : u ++ key y.2 <+: c.sort.toList) : a.sort < c.sort := by
  obtain ⟨v, hv⟩ := ha
  obtain ⟨w, hw⟩ := hc
  rw [String.lt_iff_toList_lt, ← hv, ← hw, List.append_assoc, List.append_assoc]
  exact List.Lex.append_left _ (append_lt (length_key.trans length_key.symm) hk v w) u

include h

theorem toList_child {x : String × Node} (hx : t.nodes.lookup x.1 = some x.2) :
    (b.child x).sort.toList = b.sort.toList ++ '/' :: key x.2 := by
  simp [Branch.child, toList_order (h.bounded hx)]

theorem child_within {x : String × Node} (hx : t.nodes.lookup x.1 = some x.2) (hw : Within (b.child x) b') :
    Within b b' ∧ b.sort < b'.sort := by
  obtain ⟨rest, hr⟩ := hw
  rw [toList_child h hx, List.append_assoc] at hr
  refine ⟨⟨_, hr⟩, String.lt_iff_toList_lt.mpr ?_⟩
  rw [← hr]
  nth_rewrite 1 [← List.append_nil b.sort.toList]
  exact List.Lex.append_left _ .nil _

theorem visit_pairwise (b : Branch) (k : ℕ) :
    (∀ c ∈ Rounds.visit (belowInOrder t) k b, Within b c) ∧
    (Rounds.visit (belowInOrder t) k b).Pairwise fun a c => a.sort < c.sort := by
  have children : ∀ a, ∀ c ∈ belowInOrder t a, ∃ x, t.nodes.lookup x.1 = some x.2 ∧ c = a.child x := fun a c hc => by
    unfold belowInOrder at hc
    split_ifs at hc
    case pos =>
      obtain ⟨x, hx, rfl⟩ := List.mem_map.mp hc
      exact ⟨x, (mem_inOrder.mp hx).left, rfl⟩
    case neg => cases hc
  refine Rounds.visit_pairwise (fun a => List.prefix_rfl) (fun a c hc d hw => ?_) fun a => ?_
  · obtain ⟨x, hx, rfl⟩ := children a c hc
    exact child_within h hx hw
  · unfold belowInOrder
    split_ifs
    case pos =>
      refine List.pairwise_map.mpr ((inOrder_pairwise h).imp_of_mem fun {x y} hx hy hk c d hc hd => ?_)
      rw [Within, toList_child h (mem_inOrder.mp hx).left] at hc
      rw [Within, toList_child h (mem_inOrder.mp hy).left] at hd
      exact within_lt (u := a.sort.toList ++ ['/']) hk (by simpa using hc) (by simpa using hd)
    case neg => exact .nil

theorem outline_pairwise : (((inOrder t (Root t none)).map top).flatMap (Rounds.visit (belowInOrder t) levels)).Pairwise
    fun a c => a.sort < c.sort := by
  refine List.pairwise_flatMap.mpr ⟨fun b _ => (visit_pairwise h b levels).right, ?_⟩
  refine List.pairwise_map.mpr ((inOrder_pairwise h).imp_of_mem fun {x y} hx hy hk c hc d hd => ?_)
  have hc := (visit_pairwise h (top x) levels).left c hc
  have hd := (visit_pairwise h (top y) levels).left d hd
  rw [Within, top, toList_order (h.bounded (mem_inOrder.mp hx).left)] at hc
  rw [Within, top, toList_order (h.bounded (mem_inOrder.mp hy).left)] at hd
  exact within_lt (u := []) hk hc hd

omit h in
-- Rows that are put in the order of their texts, where those are all different.
theorem insertionSort_eq {α : Type} {f : α → String} {rows sorted : List α} (hp : rows.Perm sorted)
    (hs : sorted.Pairwise fun a b => f a < f b) : rows.insertionSort (fun a b => f a ≤ f b) = sorted := by
  have ht : Std.Total fun a b : α => f a ≤ f b := ⟨fun a b => le_total (f a) (f b)⟩
  have hr : IsTrans α fun a b => f a ≤ f b := ⟨fun a b c => le_trans⟩
  refine List.Perm.eq_of_pairwise (fun a b ha hb hl hg => ?_) (List.pairwise_insertionSort _ _) (hs.imp le_of_lt)
    ((List.perm_insertionSort _ _).trans hp)
  rw [List.mem_insertionSort, hp.mem_iff] at ha
  have hn : (sorted.map f).Nodup := List.pairwise_map.mpr (hs.imp ne_of_lt)
  exact List.inj_on_of_nodup_map hn ha hb (le_antisymm hl hg)

omit h in
theorem map_visit (x : String × Node) :
    (Rounds.visit (belowInOrder t) levels (top x)).map Branch.row = Rounds.visit (under t) levels (row x 0) := by
  refine Rounds.map_visit (P := fun k b => b.depth + k ≤ levels) (fun k b hb => ?_) ?_
  · have hd : b.depth < levels := by omega
    rw [belowInOrder, if_pos hd, List.map_map]
    refine ⟨rfl, fun c hc => ?_⟩
    obtain ⟨x, _, rfl⟩ := List.mem_map.mp hc
    simp only [Branch.child]
    omega
  · exact Nat.le_of_eq (Nat.zero_add levels)

theorem subtree_eq_outline : subtree t none = outline t := by
  rw [subtree, insertionSort_eq tree_perm (outline_pairwise h), outline, List.map_flatMap, List.flatMap_map]
  exact List.flatMap_congr fun x _ => map_visit x

end Order

section Reached

-- The rows that a walk from the roots comes to, without the bound.
inductive Reached (t : Tables) : Branch → Prop
  | root {x : String × Node} (hx : t.nodes.lookup x.1 = some x.2) (hr : Root t none x.2) : Reached t (top x)
  | child {b : Branch} {x : String × Node} (hb : Reached t b) (hx : t.nodes.lookup x.1 = some x.2)
      (hp : x.2.parent = some b.id) : Reached t (b.child x)

theorem Reached.lookup (h : Reached t b) : t.nodes.lookup b.id = some b.node := by
  cases h
  case root hx _    => exact hx
  case child hx _   => exact hx

theorem not_root (h : t.nodes.lookup id = some n) (hp : n'.parent = some id) : ¬ Root t none n' := by
  have hk : id ∈ t.nodes.keys := KeyTable.mem_keys_iff.mpr (by simp [h])
  simp [Root, hp, hk]

-- A node has one parent, hence there is one way to it.
theorem Reached.unique (h : Reached t b) (h' : Reached t b') (he : b.id = b'.id) : b = b' := by
  induction h generalizing b'
  case root x hx hr =>
    cases h'
    case root y hy _ =>
      obtain ⟨i, n⟩ := x
      obtain ⟨j, m⟩ := y
      cases he
      cases hx.symm.trans hy
      rfl
    case child c y hc hy hp =>
      obtain ⟨i, n⟩ := x
      obtain ⟨j, m⟩ := y
      cases he
      cases hx.symm.trans hy
      exact absurd hr (not_root hc.lookup hp)
  case child a x ha hx hp hi =>
    cases h'
    case root y hy hr =>
      obtain ⟨i, n⟩ := x
      obtain ⟨j, m⟩ := y
      cases he
      cases hx.symm.trans hy
      exact absurd hr (not_root ha.lookup hp)
    case child c y hc hy hq =>
      obtain ⟨i, n⟩ := x
      obtain ⟨j, m⟩ := y
      cases he
      cases hx.symm.trans hy
      rw [hi hc (Option.some.inj (hp.symm.trans hq))]

theorem ends_iff {d : ℕ} : Ends t d id ↔ ∃ b, Reached t b ∧ b.id = id ∧ b.depth = d := by
  constructor
  case mp =>
    intro h
    induction d generalizing id
    case zero =>
      obtain ⟨n, hn, hr⟩ := h
      exact ⟨top (id, n), .root hn hr, rfl, rfl⟩
    case succ d hi =>
      obtain ⟨n, p, hn, hp, he⟩ := h
      obtain ⟨b, hb, rfl, rfl⟩ := hi he
      exact ⟨b.child (id, n), .child hb hn hp, rfl, rfl⟩
  case mpr =>
    rintro ⟨b, hb, rfl, rfl⟩
    induction hb
    case root x hx hr         => exact ⟨x.2, hx, hr⟩
    case child b x _ hx hp hi => exact ⟨x.2, b.id, hx, hp, hi⟩

theorem mem_below : b' ∈ below t b ↔
    b.depth < levels ∧ ∃ x, t.nodes.lookup x.1 = some x.2 ∧ x.2.parent = some b.id ∧ b' = b.child x := by
  unfold below
  split_ifs with hd
  case pos =>
    simp only [hd, true_and, List.mem_map, List.mem_filter, decide_eq_true_iff]
    refine exists_congr fun x => ?_
    rw [← Prod.mk.eta (p := x), KeyTable.mem_toList, and_assoc, eq_comm (a := b')]
  case neg => simp [hd]

theorem mem_roots : b ∈ roots t none ↔ ∃ x, t.nodes.lookup x.1 = some x.2 ∧ Root t none x.2 ∧ b = top x := by
  simp only [roots, List.mem_map, List.mem_filter, decide_eq_true_iff, reduceCtorEq, false_or, true_and]
  refine exists_congr fun x => ?_
  rw [← Prod.mk.eta (p := x), KeyTable.mem_toList, and_assoc, eq_comm (a := b)]
  rfl

theorem mem_tree : b ∈ Rounds.all (below t) levels (roots t none) ↔ Reached t b ∧ b.depth ≤ levels := by
  rw [Rounds.mem_all]
  constructor
  case mp =>
    rintro ⟨a, ha, k, _, hs⟩
    obtain ⟨x, hx, hr, rfl⟩ := mem_roots.mp ha
    have walked : ∀ k a, Reached t a → a.depth ≤ levels → Rounds.Steps (below t) k a b → Reached t b ∧ b.depth ≤ levels := by
      intro k
      induction k
      case zero =>
        intro a ha hd hs
        cases hs
        exact ⟨ha, hd⟩
      case succ k hi =>
        rintro a ha - ⟨c, hc, hs⟩
        obtain ⟨hd, y, hy, hp, rfl⟩ := mem_below.mp hc
        exact hi _ (.child ha hy hp) hd hs
    exact walked k (top x) (.root hx hr) (Nat.zero_le levels) hs
  case mpr =>
    rintro ⟨hb, hd⟩
    have stepped : ∃ a ∈ roots t none, Rounds.Steps (below t) b.depth a b := by
      induction hb
      case root x hx hr => exact ⟨top x, mem_roots.mpr ⟨x, hx, hr, rfl⟩, rfl⟩
      case child b x _ hx hp hi =>
        obtain ⟨a, ha, hs⟩ := hi (Nat.le_of_succ_le hd)
        exact ⟨a, ha, hs.snoc (mem_below.mpr ⟨hd, x, hx, hp, rfl⟩)⟩
    obtain ⟨a, ha, hs⟩ := stepped
    exact ⟨a, ha, b.depth, hd, hs⟩

theorem mem_subtree {r : Row} : r ∈ subtree t none ↔ ∃ b, Reached t b ∧ b.depth ≤ levels ∧ b.row = r := by
  simp only [subtree, List.mem_map, List.mem_insertionSort, mem_tree, and_assoc]

theorem mem_nodes_subtree : id ∈ (subtree t none).map Row.node ↔ ∃ d ≤ levels, Ends t d id := by
  simp only [List.mem_map, mem_subtree, ends_iff]
  constructor
  case mp =>
    rintro ⟨_, ⟨b, hb, hd, rfl⟩, rfl⟩
    exact ⟨b.depth, hd, b, hb, rfl, rfl⟩
  case mpr =>
    rintro ⟨_, hd, b, hb, rfl, rfl⟩
    exact ⟨b.row, ⟨b, hb, hd, rfl⟩, rfl⟩

theorem nodup_subtree (h : Placed t) : ((subtree t none).map Row.node).Nodup := by
  have hn : (Rounds.all (below t) levels (roots t none)).Nodup :=
    tree_perm.nodup_iff.mpr ((outline_pairwise h).imp fun hl he => absurd (congrArg Branch.sort he) hl.ne)
  rw [subtree, List.map_map]
  refine List.Nodup.map_on (fun a ha c hc he => ?_) ((List.perm_insertionSort _ _).nodup_iff.mpr hn)
  rw [List.mem_insertionSort, mem_tree] at ha hc
  exact ha.left.unique hc.left he

end Reached

section Dependents

variable {node : String} {k : ℕ} {r : Row}

theorem mem_down {x y : String × ℕ} : y ∈ down t x ↔ x.2 < chain ∧ (y.1, x.1) ∈ t.dependencies ∧ y.2 = x.2 + 1 := by
  obtain ⟨a, i⟩ := x
  obtain ⟨c, j⟩ := y
  unfold down
  split_ifs with h
  case pos => simp [h, eq_comm]
  case neg => simp [h]

theorem Walk.cons (hd : (id, id') ∈ t.dependencies) (h : Walk t k id' node) : Walk t (k + 1) id node := by
  induction k generalizing node
  case zero =>
    cases h
    exact ⟨id, rfl, hd⟩
  case succ k hi =>
    obtain ⟨other, hw, ho⟩ := h
    exact ⟨other, hi hw, ho⟩

theorem walk_append {j : ℕ} (h : Walk t j id id') (h' : Walk t k id' node) : Walk t (k + j) id node := by
  induction k generalizing node
  case zero =>
    cases h'
    rwa [Nat.zero_add]
  case succ k hi =>
    obtain ⟨other, hw, ho⟩ := h'
    rw [Nat.succ_add]
    exact ⟨other, hi hw, ho⟩

theorem steps_down {x y : String × ℕ} (hx : x.2 ≤ chain) :
    Rounds.Steps (down t) k x y ↔ y.2 = x.2 + k ∧ y.2 ≤ chain ∧ Walk t k y.1 x.1 := by
  induction k generalizing x
  case zero =>
    simp only [Rounds.Steps, Walk, Nat.add_zero]
    constructor
    case mp =>
      rintro rfl
      exact ⟨rfl, hx, rfl⟩
    case mpr => exact fun h => Prod.ext h.right.right.symm h.left.symm
  case succ k hi =>
    constructor
    case mp =>
      rintro ⟨z, hz, hs⟩
      obtain ⟨hd, hm, he⟩ := mem_down.mp hz
      obtain ⟨hy, hb, hw⟩ := (hi (he.trans_le hd)).mp hs
      exact ⟨by omega, hb, z.1, hw, hm⟩
    case mpr =>
      rintro ⟨hy, hb, other, hw, hm⟩
      have hd : x.2 < chain := by omega
      exact ⟨(other, x.2 + 1), mem_down.mpr ⟨hd, hm, rfl⟩, (hi (x := (other, x.2 + 1)) hd).mpr ⟨by simp only; omega, hb, hw⟩⟩

theorem one_le_chain : 1 ≤ chain := by
  decide

theorem mem_found : (id, k) ∈ found t node ↔ 0 < k ∧ k ≤ chain ∧ Walk t k id node := by
  rw [found, Rounds.mem_union]
  constructor
  case mp =>
    rintro ⟨a, ha, j, _, hs⟩
    obtain ⟨e, he, rfl⟩ := List.mem_map.mp ha
    obtain ⟨hm, hn⟩ := List.mem_filter.mp he
    obtain ⟨rfl, hk, hw⟩ := (steps_down one_le_chain).mp hs
    refine ⟨by simp only; omega, hk, ?_⟩
    cases of_decide_eq_true hn
    exact walk_append hw ⟨e.1, rfl, hm⟩
  case mpr =>
    rintro ⟨hp, hk, hw⟩
    cases k
    case zero => cases hp
    case succ k =>
      obtain ⟨other, hw, hm⟩ := hw
      refine ⟨(other, 1), List.mem_map.mpr ⟨(other, node), ?_, rfl⟩, k, by omega, (steps_down one_le_chain).mpr ?_⟩
      · exact List.mem_filter.mpr ⟨hm, decide_eq_true rfl⟩
      · exact ⟨Nat.add_comm _ _, hk, hw⟩

theorem nearest_iff (hn : id ≠ node) :
    nearest t node id = some k ↔ k ≤ chain ∧ Walk t k id node ∧ ∀ j < k, ¬ Walk t j id node := by
  have hm : ∀ j, j ∈ ((found t node).filter (·.1 = id)).map Prod.snd ↔ j ≤ chain ∧ Walk t j id node := fun j => by
    simp only [List.mem_map, List.mem_filter, decide_eq_true_iff]
    constructor
    case mp =>
      rintro ⟨⟨_, _⟩, ⟨hf, rfl⟩, rfl⟩
      exact (mem_found.mp hf).right
    case mpr =>
      rintro ⟨hk, hw⟩
      refine ⟨(id, j), ⟨mem_found.mpr ⟨?_, hk, hw⟩, rfl⟩, rfl⟩
      cases j
      case zero => exact absurd hw hn
      case succ => exact Nat.succ_pos _
  rw [nearest, List.min?_eq_some_iff, hm, and_assoc]
  refine and_congr_right fun hk => and_congr_right fun _ => ⟨fun h j hj hw => ?_, fun h j hj => ?_⟩
  · exact absurd (h j ((hm j).mpr ⟨by omega, hw⟩)) (by omega)
  · exact Nat.le_of_not_lt fun hl => h j hl ((hm j).mp hj).right

theorem mem_dependents : r ∈ dependents t (some node) ↔ r.node ≠ node ∧
    (∃ n, t.nodes.lookup r.node = some n ∧ r = row (r.node, n) r.depth) ∧
    r.depth ≤ chain ∧ Walk t r.depth r.node node ∧ ∀ j < r.depth, ¬ Walk t j r.node node := by
  simp only [dependents, List.mem_map, List.mem_insertionSort, List.mem_filterMap]
  constructor
  case mp =>
    rintro ⟨⟨x, k⟩, ⟨y, hy, hf⟩, rfl⟩
    split_ifs at hf with hn
    obtain ⟨j, hj, he⟩ := Option.map_eq_some_iff.mp hf
    cases he
    exact ⟨hn, ⟨x.2, KeyTable.mem_toList.mp hy, rfl⟩, (nearest_iff hn).mp hj⟩
  case mpr =>
    rintro ⟨hn, ⟨n, hl, he⟩, hd⟩
    refine ⟨((r.node, n), r.depth), ⟨(r.node, n), KeyTable.mem_toList.mpr hl, ?_⟩, he.symm⟩
    rw [if_neg hn, (nearest_iff hn).mpr hd]
    rfl

theorem nodup_dependents : ((dependents t (some node)).map Row.node).Nodup := by
  simp only [dependents, List.map_map]
  refine ((List.perm_insertionSort _ _).map _).nodup_iff.mpr (List.pairwise_map.mpr ?_)
  have hn : t.nodes.toList.Pairwise fun x y => x.1 ≠ y.1 := List.pairwise_map.mp KeyTable.nodup_toList
  refine hn.filterMap _ fun x y hd a ha b hb => ?_
  split_ifs at ha hb
  obtain ⟨_, _, rfl⟩ := Option.map_eq_some_iff.mp ha
  obtain ⟨_, _, rfl⟩ := Option.map_eq_some_iff.mp hb
  exact hd

end Dependents

-- What a list of rows says of a node's dependents.
def Dependents (t : Tables) (node : String) (rows : List Row) : Prop :=
  (rows.map Row.node).Nodup ∧ ∀ r, r ∈ rows ↔ r.node ≠ node ∧
    (∃ n, t.nodes.lookup r.node = some n ∧ r = row (r.node, n) r.depth) ∧
    r.depth ≤ chain ∧ Walk t r.depth r.node node ∧ ∀ k < r.depth, ¬ Walk t k r.node node

-- What a list of rows says of the whole ledger.
def Outlines (t : Tables) (rows : List Row) : Prop :=
  rows = outline t ∧ (rows.map Row.node).Nodup ∧ ∀ id, id ∈ rows.map Row.node ↔ ∃ d ≤ levels, Ends t d id

theorem read_dependents {node : String} (h : node ∈ t.nodes.keys) :
    ∃ rows, read t .dependents (some node) = .ok rows ∧ Dependents t node rows := by
  refine ⟨dependents t (some node), ?_, nodup_dependents, fun _ => mem_dependents⟩
  simp [read, Option.filter, h]

theorem read_subtree (h : Placed t) : ∃ rows, read t .subtree none = .ok rows ∧ Outlines t rows :=
  ⟨subtree t none, rfl, subtree_eq_outline h, nodup_subtree h, fun _ => mem_nodes_subtree⟩

theorem syncs_follow (start : Tables) (states : List State) (state : State) :
    ∃ t, (states ++ [state]).foldlM sync start = some t ∧ Holds t (project state) ∧
      drift (stored t) (project state) = ⟨[], [], [], [], [], 0⟩ ∧ sync t state = some t ∧
      (∀ node ∈ t.nodes.keys, ∃ rows, read t .dependents (some node) = .ok rows ∧ Dependents t node rows) ∧
      ((∀ kind, (items state kind).length < 10 ^ 9) → ∃ rows, read t .subtree none = .ok rows ∧ Outlines t rows) := by
  obtain ⟨t₁, hs⟩ := syncs_spec start states
  obtain ⟨t₂, ht, hh⟩ := sync_spec t₁ state
  refine ⟨t₂, ?_, hh, hh.drift, hh.apply, fun node hn => read_dependents hn, fun hb => read_subtree (hh.placed hb)⟩
  rw [List.foldlM_append, hs]
  simpa using ht

section Lineage

variable {k : ℕ} {a x : String} {r r' : Row}

-- `a` is the parent of `id` `k` times over.
def Up (t : Tables) : ℕ → String → String → Prop
  | 0,     id, a => id = a ∧ id ∈ t.nodes.keys
  | k + 1, id, a => ∃ n p, t.nodes.lookup id = some n ∧ n.parent = some p ∧ Up t k p a

theorem Up.mem (h : Up t k x a) : a ∈ t.nodes.keys := by
  induction k generalizing x
  case zero =>
    cases h.left
    exact h.right
  case succ k hi =>
    obtain ⟨_, _, _, _, hu⟩ := h
    exact hi hu

theorem Up.snoc (h : Up t k x id) (hn : t.nodes.lookup id = some n) (hp : n.parent = some a) (ha : a ∈ t.nodes.keys) :
    Up t (k + 1) x a := by
  induction k generalizing x
  case zero =>
    cases h.left
    exact ⟨n, a, hn, hp, rfl, ha⟩
  case succ k hi =>
    obtain ⟨m, p, hm, hq, hu⟩ := h
    exact ⟨m, p, hm, hq, hi hu⟩

theorem Up.unsnoc (h : Up t (k + 1) x a) : ∃ id n, Up t k x id ∧ t.nodes.lookup id = some n ∧ n.parent = some a := by
  induction k generalizing x
  case zero =>
    obtain ⟨n, p, hn, hp, rfl, _⟩ := h
    exact ⟨x, n, ⟨rfl, KeyTable.mem_keys_iff.mpr (by simp [hn])⟩, hn, hp⟩
  case succ k hi =>
    obtain ⟨n, p, hn, hp, hu⟩ := h
    obtain ⟨id, m, hu, hm, hq⟩ := hi hu
    exact ⟨id, m, ⟨n, p, hn, hp, hu⟩, hm, hq⟩

-- A row shows what stands in the table.
def Shows (t : Tables) (r : Row) : Prop :=
  ∃ n, t.nodes.lookup r.node = some n ∧ r = row (r.node, n) r.depth

theorem Shows.eq (h : Shows t r) (h' : Shows t r') (hn : r.node = r'.node) (hd : r.depth = r'.depth) : r = r' := by
  obtain ⟨n, hl, he⟩ := h
  obtain ⟨n', hl', he'⟩ := h'
  rw [he, he', hn, hd]
  cases (hn ▸ hl).symm.trans hl'
  rfl

theorem mem_above : r' ∈ above t r ↔
    r.depth < levels ∧ r.parent = some r'.node ∧ Shows t r' ∧ r'.depth = r.depth + 1 := by
  unfold above
  split_ifs with hd
  case pos =>
    simp only [hd, true_and, List.mem_map, List.mem_filter, decide_eq_true_iff]
    constructor
    case mp =>
      rintro ⟨⟨id, n⟩, ⟨hm, hp⟩, rfl⟩
      exact ⟨hp.symm, ⟨n, KeyTable.mem_toList.mp hm, rfl⟩, rfl⟩
    case mpr =>
      rintro ⟨hp, ⟨n, hl, he⟩, hk⟩
      exact ⟨(r'.node, n), ⟨KeyTable.mem_toList.mpr hl, hp.symm⟩, hk ▸ he.symm⟩
  case neg => simp [hd]

theorem steps_above (hr : Shows t r) (hd : r.depth ≤ levels) :
    Rounds.Steps (above t) k r r' ↔ r'.depth = r.depth + k ∧ r'.depth ≤ levels ∧ Up t k r.node r'.node ∧ Shows t r' := by
  obtain ⟨n, hl, he⟩ := hr
  have hk : r.node ∈ t.nodes.keys := KeyTable.mem_keys_iff.mpr (by simp [hl])
  have hp : r.parent = n.parent := by rw [he, row]
  induction k generalizing r n
  case zero =>
    simp only [Rounds.Steps, Up, Nat.add_zero]
    constructor
    case mp =>
      rintro rfl
      exact ⟨rfl, hd, ⟨rfl, hk⟩, n, hl, he⟩
    case mpr => exact fun h => Shows.eq ⟨n, hl, he⟩ h.right.right.right h.right.right.left.left h.left.symm
  case succ k hi =>
    constructor
    case mp =>
      rintro ⟨b, hb, hs⟩
      obtain ⟨hd', hb', ⟨m, hm, he'⟩, hbd⟩ := mem_above.mp hb
      have hbk : b.node ∈ t.nodes.keys := KeyTable.mem_keys_iff.mpr (by simp [hm])
      obtain ⟨hr', hl', hu, hs'⟩ := (hi (hbd.trans_le hd') m hm he' hbk (by rw [he', row])).mp hs
      exact ⟨by omega, hl', ⟨n, b.node, hl, hp ▸ hb', hu⟩, hs'⟩
    case mpr =>
      rintro ⟨hr', hl', ⟨m, p, hm, hq, hu⟩, hs'⟩
      cases hl.symm.trans hm
      have hpk : p ∈ t.nodes.keys := by
        cases k
        case zero => exact hu.right
        case succ k =>
          obtain ⟨_, _, hz, _⟩ := hu
          exact KeyTable.mem_keys_iff.mpr (by simp [hz])
      obtain ⟨w, hw⟩ := Option.ne_none_iff_exists'.mp (KeyTable.mem_keys_iff.mp hpk)
      have hd' : r.depth < levels := by omega
      refine ⟨row (p, w) (r.depth + 1), mem_above.mpr ⟨hd', hp.trans hq, ⟨w, hw, rfl⟩, rfl⟩, ?_⟩
      exact (hi (r := row (p, w) (r.depth + 1)) hd' w hw rfl hpk rfl).mpr ⟨by simp only [row]; omega, hl', hu, hs'⟩

theorem mem_ancestors : r ∈ ancestors t (some x) ↔ 0 < r.depth ∧ r.depth ≤ levels ∧ Up t r.depth x r.node ∧ Shows t r := by
  simp only [ancestors, List.mem_insertionSort, List.mem_filter, decide_eq_true_iff, Rounds.mem_all, List.mem_map]
  constructor
  case mp =>
    rintro ⟨⟨_, ⟨⟨id, n⟩, ⟨hm, he⟩, rfl⟩, k, _, hs⟩, hp⟩
    cases he
    obtain ⟨hd, hl, hu, hr⟩ := (steps_above ⟨n, KeyTable.mem_toList.mp hm, rfl⟩ (Nat.zero_le levels)).mp hs
    rw [row, Nat.zero_add] at hd
    exact ⟨hp, hl, hd ▸ hu, hr⟩
  case mpr =>
    rintro ⟨hp, hl, hu, hr⟩
    obtain ⟨n, hn⟩ : ∃ n, t.nodes.lookup x = some n := by
      cases hk : r.depth
      case zero => omega
      case succ k =>
        rw [hk] at hu
        obtain ⟨n, _, hn, _⟩ := hu
        exact ⟨n, hn⟩
    refine ⟨⟨row (x, n) 0, ⟨(x, n), ⟨KeyTable.mem_toList.mpr hn, rfl⟩, rfl⟩, r.depth, hl, ?_⟩, hp⟩
    exact (steps_above ⟨n, hn, rfl⟩ (Nat.zero_le levels)).mpr ⟨by simp [row], hl, hu, hr⟩

theorem filter_key_pairwise {R : String × Node → String × Node → Prop} (o : Option String) :
    (t.nodes.toList.filter fun x => some x.1 = o).Pairwise R := by
  have hn : t.nodes.toList.Pairwise fun x y => x.1 ≠ y.1 := List.pairwise_map.mp KeyTable.nodup_toList
  refine (hn.filter _).imp_of_mem fun {x y} hx hy hne => ?_
  have hx := of_decide_eq_true (List.mem_filter.mp hx).right
  have hy := of_decide_eq_true (List.mem_filter.mp hy).right
  exact absurd (Option.some.inj (hx.trans hy.symm)) hne

-- One ancestor at each height, the highest first.
theorem ancestors_pairwise (x : Option String) : (ancestors t x).Pairwise fun r r' => r'.depth < r.depth := by
  have apart : ∀ r, (Rounds.visit (above t) levels r).Pairwise fun r r' => r.depth < r'.depth := fun r =>
    (Rounds.visit_pairwise (S := fun r r' => r.depth ≤ r'.depth) (fun _ => le_rfl)
      (fun r r' hr' r'' hs => by
        have := (mem_above.mp hr').right.right.right
        omega)
      (fun r => by
        unfold above
        split_ifs
        case pos => exact List.pairwise_map.mpr (filter_key_pairwise _)
        case neg => exact .nil)).right
  have hn : ((Rounds.all (above t) levels ((t.nodes.toList.filter fun y => some y.1 = x).map fun y => row y 0)).map
      Row.depth).Nodup := by
    refine ((Rounds.all_perm fun _ => .refl _).map _).nodup_iff.mpr (List.pairwise_map.mpr (List.pairwise_flatMap.mpr ⟨?_, ?_⟩))
    · exact fun r _ => (apart r).imp ne_of_lt
    · exact List.pairwise_map.mpr (filter_key_pairwise _)
  have ht : Std.Total fun r r' : Row => r'.depth ≤ r.depth := ⟨fun r r' => le_total r'.depth r.depth⟩
  have hr : IsTrans Row fun r r' => r'.depth ≤ r.depth := ⟨fun _ _ _ h h' => h'.trans h⟩
  have hf := hn.sublist ((List.filter_sublist (p := fun r : Row => 0 < r.depth)).map Row.depth)
  have hs := ((List.perm_insertionSort (fun r r' : Row => r'.depth ≤ r.depth) _).map _).nodup_iff.mpr hf
  exact ((List.pairwise_insertionSort _ _).and (List.pairwise_map.mp hs)).imp fun h => lt_of_le_of_ne h.left h.right.symm

theorem steps_below (hb : t.nodes.lookup b.id = some b.node) (hd : b.depth ≤ levels) :
    (∃ b', Rounds.Steps (below t) k b b' ∧ b'.row = r) ↔
      r.depth = b.depth + k ∧ r.depth ≤ levels ∧ Up t k r.node b.id ∧ Shows t r := by
  induction k generalizing b
  case zero =>
    constructor
    case mp =>
      rintro ⟨_, rfl, rfl⟩
      exact ⟨rfl, hd, ⟨rfl, KeyTable.mem_keys_iff.mpr (by simp [Branch.row, row, hb])⟩, b.node, hb, rfl⟩
    case mpr =>
      rintro ⟨hr, _, hu, n, hn, he⟩
      refine ⟨b, rfl, ?_⟩
      rw [he, hu.left, hr]
      cases (hu.left ▸ hn).symm.trans hb
      rfl
  case succ k hi =>
    constructor
    case mp =>
      rintro ⟨b', ⟨c, hc, hs⟩, he⟩
      obtain ⟨hd', x, hx, hp, rfl⟩ := mem_below.mp hc
      obtain ⟨hr, hl, hu, hsh⟩ := (hi (b := b.child x) hx hd').mp ⟨b', hs, he⟩
      simp only [Branch.child] at hr hu
      exact ⟨by omega, hl, hu.snoc hx hp (KeyTable.mem_keys_iff.mpr (by simp [hb])), hsh⟩
    case mpr =>
      rintro ⟨hr, hl, hu, hsh⟩
      obtain ⟨id, n, hu, hn, hp⟩ := hu.unsnoc
      have hd' : b.depth < levels := by omega
      obtain ⟨b', hs, he⟩ := (hi (b := b.child (id, n)) hn hd').mpr ⟨by simp only [Branch.child]; omega, hl, hu, hsh⟩
      exact ⟨b', ⟨b.child (id, n), mem_below.mpr ⟨hd', (id, n), hn, hp, rfl⟩, hs⟩, he⟩

theorem roots_some (hn : t.nodes.lookup a = some n) : roots t (some a) = [top (a, n)] := by
  have hf : (t.nodes.toList.filter fun x => some a = some x.1 ∨ some a = none ∧ Root t none x.2) = [(a, n)] := by
    refine List.perm_singleton.mp ((List.perm_ext_iff_of_nodup ((KeyTable.nodup_toList.of_map _).filter _)
      (List.nodup_singleton _)).mpr fun x => ?_)
    obtain ⟨id, m⟩ := x
    simp only [List.mem_filter, KeyTable.mem_toList, decide_eq_true_iff, reduceCtorEq, false_and, or_false,
      Option.some.injEq, List.mem_singleton, Prod.mk.injEq]
    constructor
    case mp =>
      rintro ⟨hm, rfl⟩
      exact ⟨rfl, Option.some.inj (hm.symm.trans hn)⟩
    case mpr =>
      rintro ⟨rfl, rfl⟩
      exact ⟨hn, rfl⟩
  rw [roots, hf]
  rfl

theorem mem_subtree_some (hn : t.nodes.lookup a = some n) :
    r ∈ subtree t (some a) ↔ r.depth ≤ levels ∧ Up t r.depth r.node a ∧ Shows t r := by
  simp only [subtree, List.mem_map, List.mem_insertionSort, Rounds.mem_all, roots_some hn, List.mem_singleton,
    exists_eq_left]
  constructor
  case mp =>
    rintro ⟨b, ⟨k, _, hs⟩, he⟩
    obtain ⟨hd, hl, hu, hr⟩ := (steps_below (b := top (a, n)) hn (Nat.zero_le levels)).mp ⟨b, hs, he⟩
    rw [top, Nat.zero_add] at hd
    exact ⟨hl, hd ▸ hu, hr⟩
  case mpr =>
    rintro ⟨hl, hu, hr⟩
    obtain ⟨b, hs, he⟩ := (steps_below (b := top (a, n)) hn (Nat.zero_le levels)).mpr ⟨(Nat.zero_add _).symm, hl, hu, hr⟩
    exact ⟨b, ⟨r.depth, hl, hs⟩, he⟩

theorem subtree_some_eq (h : Placed t) (hn : t.nodes.lookup a = some n) :
    subtree t (some a) = Rounds.visit (under t) levels (row (a, n) 0) := by
  have hp : (Rounds.all (below t) levels [top (a, n)]).Perm (Rounds.visit (belowInOrder t) levels (top (a, n))) := by
    have ha : (Rounds.all (below t) levels [top (a, n)]).Perm
        ([top (a, n)].flatMap (Rounds.visit (belowInOrder t) levels)) := Rounds.all_perm below_perm
    simpa using ha
  rw [subtree, roots_some hn, insertionSort_eq hp (visit_pairwise h _ _).right, map_visit]

theorem depth_of_steps_under (h : Rounds.Steps (under t) k r r') : r'.depth = r.depth + k := by
  induction k generalizing r
  case zero =>
    cases h
    rfl
  case succ k hi =>
    obtain ⟨c, hc, hs⟩ := h
    obtain ⟨_, _, rfl⟩ := List.mem_map.mp hc
    have := hi hs
    simp only [row] at this
    omega

theorem filter_visit (m : ℕ) (r : Row) : (Rounds.visit (under t) m r).filter (·.depth = r.depth) = [r] := by
  cases m
  case zero => simp [Rounds.visit]
  case succ m =>
    rw [Rounds.visit, List.filter_cons_of_pos (by simp), List.filter_eq_nil_iff.mpr fun c hc => ?_]
    obtain ⟨b, hb, hc⟩ := List.mem_flatMap.mp hc
    obtain ⟨k, _, hs⟩ := Rounds.mem_visit.mp hc
    have := depth_of_steps_under (k := k + 1) ⟨b, hb, hs⟩
    rw [decide_eq_true_iff]
    omega

theorem children_eq (h : Placed t) : children t (some a) = (inOrder t fun n => n.parent = some a).map fun x => row x 1 := by
  have hf : (t.nodes.toList.filter fun x => Root t (some a) x.2) = t.nodes.toList.filter fun x => x.2.parent = some a := by
    simp [Root]
  have hs : (inOrder t fun n => n.parent = some a).Pairwise fun x y => order x.2 < order y.2 :=
    (inOrder_pairwise h).imp_of_mem fun {x y} hx hy hk => by
      rw [String.lt_iff_toList_lt, toList_order (h.bounded (mem_inOrder.mp hx).left),
        toList_order (h.bounded (mem_inOrder.mp hy).left)]
      exact hk
  simp only [children, hf, reduceCtorEq, if_false]
  rw [insertionSort_eq (f := fun x : String × Node => order x.2) (List.perm_insertionSort _ _).symm hs]
  rfl

-- The children of a node are the rows of its subtree that are one level down, in the same order.
theorem children_eq_filter (h : Placed t) (hn : t.nodes.lookup a = some n) :
    children t (some a) = (subtree t (some a)).filter (·.depth = 1) := by
  have hv : (Rounds.visit (under t) levels (row (a, n) 0)).filter (·.depth = 1) =
      (under t (row (a, n) 0)).flatMap fun c => (Rounds.visit (under t) 2 c).filter (·.depth = 1) := by
    rw [levels, Rounds.visit, List.filter_cons_of_neg (by simp [row]), List.filter_flatMap]
  have hc : ((under t (row (a, n) 0)).flatMap fun c => (Rounds.visit (under t) 2 c).filter (·.depth = 1)) =
      (under t (row (a, n) 0)).flatMap fun c => [c] := by
    refine List.flatMap_congr fun c hc => ?_
    obtain ⟨x, _, rfl⟩ := List.mem_map.mp hc
    exact filter_visit 2 (row x (0 + 1))
  rw [subtree_some_eq h hn, hv, hc, List.flatMap_singleton', children_eq h]
  rfl

theorem read_some (hk : x ∈ t.nodes.keys) : read t .ancestors (some x) = .ok (ancestors t (some x)) ∧
    read t .subtree (some x) = .ok (subtree t (some x)) ∧ read t .children (some x) = .ok (children t (some x)) := by
  simp [read, Option.filter, hk]

end Lineage

-- The reads of one index agree: a node is an ancestor of another exactly when the other is in its subtree, as far apart;
-- the ancestors stand one to a level, the highest first; and where the texts order the nodes, as they do after every
-- synchronisation with fewer items than they have room for, a node's subtree is its walk and starts with its children.
theorem reads_agree (t : Tables) :
    (∀ a x k, (∃ rows r, read t .ancestors (some x) = .ok rows ∧ r ∈ rows ∧ r.node = a ∧ r.depth = k) ↔
      0 < k ∧ ∃ rows r, read t .subtree (some a) = .ok rows ∧ r ∈ rows ∧ r.node = x ∧ r.depth = k) ∧
    (∀ x rows, read t .ancestors (some x) = .ok rows → rows.Pairwise fun r r' => r'.depth < r.depth) ∧
    ∀ state, Holds t (project state) → (∀ kind, (items state kind).length < 10 ^ 9) → ∀ a ∈ t.nodes.keys, ∃ n rows,
      t.nodes.lookup a = some n ∧ read t .subtree (some a) = .ok rows ∧
      rows = Rounds.visit (under t) levels (row (a, n) 0) ∧
      read t .children (some a) = .ok (rows.filter (·.depth = 1)) := by
  have missing : ∀ {name x rows}, read t name (some x) = .ok rows → x ∈ t.nodes.keys := fun {name x rows} h => by
    by_contra hk
    simp [read, Option.filter, hk] at h
  refine ⟨fun a x k => ⟨?_, ?_⟩, fun x rows h => ?_, fun state hh hb a ha => ?_⟩
  · rintro ⟨rows, r, hr, hm, rfl, rfl⟩
    have hx := missing hr
    rw [← Except.ok.inj ((read_some hx).left.symm.trans hr), mem_ancestors] at hm
    obtain ⟨hp, hl, hu, _⟩ := hm
    obtain ⟨n, hn⟩ := Option.ne_none_iff_exists'.mp (KeyTable.mem_keys_iff.mp hu.mem)
    obtain ⟨m, hm⟩ := Option.ne_none_iff_exists'.mp (KeyTable.mem_keys_iff.mp hx)
    refine ⟨hp, subtree t (some r.node), row (x, m) r.depth, (read_some hu.mem).right.left, ?_, rfl, rfl⟩
    exact (mem_subtree_some hn).mpr ⟨hl, hu, m, hm, rfl⟩
  · rintro ⟨hp, rows, r, hr, hm, rfl, rfl⟩
    have ha := missing hr
    obtain ⟨n, hn⟩ := Option.ne_none_iff_exists'.mp (KeyTable.mem_keys_iff.mp ha)
    rw [← Except.ok.inj ((read_some ha).right.left.symm.trans hr)] at hm
    obtain ⟨hl, hu, m, hm, _⟩ := (mem_subtree_some hn).mp hm
    have hk : r.node ∈ t.nodes.keys := KeyTable.mem_keys_iff.mpr (by simp [hm])
    refine ⟨ancestors t (some r.node), row (a, n) r.depth, (read_some hk).left, ?_, rfl, rfl⟩
    exact mem_ancestors.mpr ⟨hp, hl, hu, n, hn, rfl⟩
  · rw [← Except.ok.inj ((read_some (missing h)).left.symm.trans h)]
    exact ancestors_pairwise _
  · have placed := hh.placed hb
    obtain ⟨n, hn⟩ := Option.ne_none_iff_exists'.mp (KeyTable.mem_keys_iff.mp ha)
    refine ⟨n, subtree t (some a), hn, (read_some ha).right.left, subtree_some_eq placed hn, ?_⟩
    rw [(read_some ha).right.right, children_eq_filter placed hn]

end Hierarchy
