import Agentihooks.Library.Finmap
import Mathlib.Data.Set.Basic

-- Transactions over a store of named sections, each a finite map from keys to records. A program
-- reads single keys or whole sections, asks its environment, writes, and ends with a result or a
-- refusal. `exec` is its meaning when it runs alone; `footprint` collects the addresses its outcome
-- depends on or may change, `questions` what it asks. The two facts below are what optimistic
-- concurrency rests on: a program repeats itself on any store that agrees with the first one on its
-- footprint, and merging its writes into that other store gives what running it there would give.

variable {σ ι : Type} {κ : σ → Type}

abbrev Sections (β : (s : σ) → κ s → Type) :=
  (s : σ) → Finmap (β s)

inductive Program (β : (s : σ) → κ s → Type) (ρ : ι → Type) (ε α : Type)
  | done   (a : α)
  | refuse (e : ε)
  | ask    (i : ι) (next : ρ i → Program β ρ ε α)
  | get    (s : σ) (k : κ s) (next : Option (β s k) → Program β ρ ε α)
  | items  (s : σ) (next : Finmap (β s) → Program β ρ ε α)
  | update (s : σ) (rows : Finmap (β s)) (next : Program β ρ ε α)
  | remove (s : σ) (keys : Finset (κ s)) (next : Program β ρ ε α)
  | assign (s : σ) (rows : Finmap (β s)) (next : Program β ρ ε α)

variable [DecidableEq σ] [∀ s, DecidableEq (κ s)]
variable {β : (s : σ) → κ s → Type} {ρ : ι → Type} {ε α : Type}

namespace Sections

variable {d d₁ d₂ : Sections β}

-- The record at an address, a section together with one of its keys.
def fetch (d : Sections β) (x : (s : σ) × κ s) : Option (β x.1 x.2) :=
  (d x.1).lookup x.2

omit [DecidableEq σ] in
theorem ext_fetch (h : ∀ x, d₁.fetch x = d₂.fetch x) : d₁ = d₂ := by
  funext s
  apply Finmap.ext_lookup
  intro k
  exact h ⟨s, k⟩

def assign (d : Sections β) (s : σ) (rows : Finmap (β s)) : Sections β :=
  Function.update d s rows

def update (d : Sections β) (s : σ) (rows : Finmap (β s)) : Sections β :=
  d.assign s (rows ∪ d s)

def remove (d : Sections β) (s : σ) (keys : Finset (κ s)) : Sections β :=
  d.assign s ((d s).restrict (· ∉ keys))

abbrev put (d : Sections β) (s : σ) (k : κ s) (v : β s k) : Sections β :=
  d.update s (.singleton k v)

omit [∀ s, DecidableEq (κ s)] in
@[simp]
theorem assign_same {s : σ} {rows : Finmap (β s)} : (d.assign s rows) s = rows :=
  Function.update_self ..

omit [∀ s, DecidableEq (κ s)] in
@[simp]
theorem assign_other {s t : σ} {rows : Finmap (β s)} (h : t ≠ s) : (d.assign s rows) t = d t :=
  Function.update_of_ne h ..

omit [∀ s, DecidableEq (κ s)] in
@[simp]
theorem assign_self {s : σ} : d.assign s (d s) = d :=
  Function.update_eq_self ..

@[simp]
theorem update_same {s : σ} {rows : Finmap (β s)} : (d.update s rows) s = rows ∪ d s :=
  assign_same

@[simp]
theorem update_other {s t : σ} {rows : Finmap (β s)} (h : t ≠ s) : (d.update s rows) t = d t :=
  assign_other h

theorem put_same {s : σ} {k : κ s} {v : β s k} : (d.put s k v) s = Finmap.singleton k v ∪ d s :=
  update_same

theorem put_other {s t : σ} {k : κ s} {v : β s k} (h : t ≠ s) : (d.put s k v) t = d t :=
  update_other h

@[simp]
theorem remove_same {s : σ} {keys : Finset (κ s)} :
    (d.remove s keys) s = (d s).restrict (· ∉ keys) :=
  assign_same

@[simp]
theorem remove_other {s t : σ} {keys : Finset (κ s)} (h : t ≠ s) : (d.remove s keys) t = d t :=
  assign_other h

theorem fetch_assign_other {s : σ} {rows : Finmap (β s)} {x : (s : σ) × κ s} (h : x.1 ≠ s) :
    (d.assign s rows).fetch x = d.fetch x := by
  simp [fetch, h]

theorem fetch_update_self {s : σ} {rows : Finmap (β s)} {k : κ s} :
    (d.update s rows).fetch ⟨s, k⟩ = (rows.lookup k).or (d.fetch ⟨s, k⟩) := by
  simp [fetch, Finmap.lookup_union]

theorem fetch_update_other {s : σ} {rows : Finmap (β s)} {x : (s : σ) × κ s}
    (h : x ∉ Sigma.mk s '' rows.keys) : (d.update s rows).fetch x = d.fetch x := by
  obtain ⟨t, k⟩ := x
  by_cases ht : t = s
  case neg => exact fetch_assign_other ht
  case pos =>
    subst ht
    have hk : k ∉ rows.keys := fun hk => h ⟨k, hk, rfl⟩
    simp [fetch_update_self, Finmap.lookup_eq_none_of_notMem_keys hk]

theorem fetch_remove_self {s : σ} {keys : Finset (κ s)} {k : κ s} :
    (d.remove s keys).fetch ⟨s, k⟩ = if k ∈ keys then none else d.fetch ⟨s, k⟩ := by
  by_cases hk : k ∈ keys <;> simp [fetch, hk]

theorem fetch_remove_other {s : σ} {keys : Finset (κ s)} {x : (s : σ) × κ s}
    (h : x ∉ Sigma.mk s '' (keys : Set (κ s))) : (d.remove s keys).fetch x = d.fetch x := by
  obtain ⟨t, k⟩ := x
  by_cases ht : t = s
  case neg => exact fetch_assign_other ht
  case pos =>
    subst ht
    have hk : k ∉ keys := fun hk => h ⟨k, hk, rfl⟩
    rw [fetch_remove_self, if_neg hk]

-- The three way merge: the changes that lead from `before` to `after`, applied to `base`.
def merge [∀ s k, DecidableEq (β s k)] (base before after : Sections β) : Sections β :=
  fun s => .build ((base s).keys ∪ (after s).keys) fun k =>
    if (before s).lookup k = (after s).lookup k then (base s).lookup k else (after s).lookup k

omit [DecidableEq σ] in
theorem fetch_merge [∀ s k, DecidableEq (β s k)] (base before after : Sections β)
    (x : (s : σ) × κ s) :
    (merge base before after).fetch x =
      if before.fetch x = after.fetch x then base.fetch x else after.fetch x := by
  refine Finmap.lookup_build_of_support fun h => ?_
  simp only [Finset.mem_union, not_or] at h
  simp [Finmap.lookup_eq_none_of_notMem_keys h.left, Finmap.lookup_eq_none_of_notMem_keys h.right]

end Sections

namespace Program

open Sections

def bind {δ : Type} : Program β ρ ε α → (α → Program β ρ ε δ) → Program β ρ ε δ
  | done a,             f => f a
  | refuse e,           _ => .refuse e
  | ask i next,         f => .ask i fun v => (next v).bind f
  | get s k next,       f => .get s k fun v => (next v).bind f
  | items s next,       f => .items s fun rows => (next rows).bind f
  | update s rows next, f => .update s rows (next.bind f)
  | remove s keys next, f => .remove s keys (next.bind f)
  | assign s rows next, f => .assign s rows (next.bind f)

instance : Monad (Program β ρ ε) where
  pure := done
  bind := bind

def asked (i : ι) : Program β ρ ε (ρ i) :=
  .ask i done

def read (s : σ) (k : κ s) : Program β ρ ε (Option (β s k)) :=
  .get s k done

def scan (s : σ) : Program β ρ ε (Finmap (β s)) :=
  .items s done

def write (s : σ) (k : κ s) (v : β s k) : Program β ρ ε Unit :=
  .update s (.singleton k v) (done ())

def writeAll (s : σ) (rows : Finmap (β s)) : Program β ρ ε Unit :=
  .update s rows (done ())

def delete (s : σ) (k : κ s) : Program β ρ ε Unit :=
  .remove s {k} (done ())

def deleteAll (s : σ) (keys : Finset (κ s)) : Program β ρ ε Unit :=
  .remove s keys (done ())

def replace (s : σ) (rows : Finmap (β s)) : Program β ρ ε Unit :=
  .assign s rows (done ())

def ensure (q : Prop) [Decidable q] (e : ε) : Program β ρ ε Unit :=
  if q then pure () else .refuse e

def attempt : Except ε α → Program β ρ ε α
  | .ok a    => pure a
  | .error e => .refuse e

def exec (c : (i : ι) → ρ i) : Program β ρ ε α → Sections β → Except ε (α × Sections β)
  | done a,             d => .ok (a, d)
  | refuse e,           _ => .error e
  | ask i next,         d => (next (c i)).exec c d
  | get s k next,       d => (next ((d s).lookup k)).exec c d
  | items s next,       d => (next (d s)).exec c d
  | update s rows next, d => next.exec c (d.update s rows)
  | remove s keys next, d => next.exec c (d.remove s keys)
  | assign s rows next, d => next.exec c (d.assign s rows)

def footprint (c : (i : ι) → ρ i) : Program β ρ ε α → Sections β → Set ((s : σ) × κ s)
  | done _,             _ => ∅
  | refuse _,           _ => ∅
  | ask i next,         d => (next (c i)).footprint c d
  | get s k next,       d => insert ⟨s, k⟩ ((next ((d s).lookup k)).footprint c d)
  | items s next,       d => { x | x.1 = s } ∪ (next (d s)).footprint c d
  | update s rows next, d => Sigma.mk s '' rows.keys ∪ next.footprint c (d.update s rows)
  | remove s keys next, d => Sigma.mk s '' keys ∪ next.footprint c (d.remove s keys)
  | assign s rows next, d => { x | x.1 = s } ∪ next.footprint c (d.assign s rows)

def questions (c : (i : ι) → ρ i) : Program β ρ ε α → Sections β → Set ι
  | done _,             _ => ∅
  | refuse _,           _ => ∅
  | ask i next,         d => insert i ((next (c i)).questions c d)
  | get s k next,       d => (next ((d s).lookup k)).questions c d
  | items s next,       d => (next (d s)).questions c d
  | update s rows next, d => next.questions c (d.update s rows)
  | remove s keys next, d => next.questions c (d.remove s keys)
  | assign s rows next, d => next.questions c (d.assign s rows)

section Accepted

variable {q : Prop} [Decidable q] {e : ε} {x : Except ε α} {a : α}

-- An accepted run passed its guards.
@[simp]
theorem guard_ok : (if q then x else .error e) = .ok a ↔ q ∧ x = .ok a := by
  split <;> simp [*]

@[simp]
theorem guard_not_ok : (if q then .error e else x) = .ok a ↔ ¬q ∧ x = .ok a := by
  split <;> simp [*]

end Accepted

section Exec

variable {δ : Type} {c : (i : ι) → ρ i} {d d' : Sections β} {s : σ} {k : κ s} {i : ι}

@[simp]
theorem exec_pure (a : α) : (pure a : Program β ρ ε α).exec c d = .ok (a, d) :=
  rfl

@[simp]
theorem exec_refuse (e : ε) : (refuse e : Program β ρ ε α).exec c d = .error e :=
  rfl

@[simp]
theorem exec_refuse_bind (e : ε) (f : α → Program β ρ ε δ) :
    ((refuse e : Program β ρ ε α) >>= f).exec c d = .error e :=
  rfl

@[simp]
theorem exec_asked (f : ρ i → Program β ρ ε δ) : (asked i >>= f).exec c d = (f (c i)).exec c d :=
  rfl

@[simp]
theorem exec_read (f : Option (β s k) → Program β ρ ε δ) :
    (read s k >>= f).exec c d = (f ((d s).lookup k)).exec c d :=
  rfl

@[simp]
theorem exec_scan (f : Finmap (β s) → Program β ρ ε δ) :
    (scan s >>= f).exec c d = (f (d s)).exec c d :=
  rfl

@[simp]
theorem exec_write (v : β s k) (f : Unit → Program β ρ ε δ) :
    (write s k v >>= f).exec c d = (f ()).exec c (d.put s k v) :=
  rfl

@[simp]
theorem exec_write_done (v : β s k) :
    (write s k v : Program β ρ ε Unit).exec c d = .ok ((), d.put s k v) :=
  rfl

@[simp]
theorem exec_writeAll (rows : Finmap (β s)) (f : Unit → Program β ρ ε δ) :
    (writeAll s rows >>= f).exec c d = (f ()).exec c (d.update s rows) :=
  rfl

@[simp]
theorem exec_delete (f : Unit → Program β ρ ε δ) :
    (delete s k >>= f).exec c d = (f ()).exec c (d.remove s {k}) :=
  rfl

@[simp]
theorem exec_deleteAll (keys : Finset (κ s)) (f : Unit → Program β ρ ε δ) :
    (deleteAll s keys >>= f).exec c d = (f ()).exec c (d.remove s keys) :=
  rfl

@[simp]
theorem exec_replace (rows : Finmap (β s)) (f : Unit → Program β ρ ε δ) :
    (replace s rows >>= f).exec c d = (f ()).exec c (d.assign s rows) :=
  rfl

@[simp]
theorem exec_pure_bind (a : α) (f : α → Program β ρ ε δ) :
    ((pure a : Program β ρ ε α) >>= f).exec c d = (f a).exec c d :=
  rfl

@[simp]
theorem exec_ensure (q : Prop) [Decidable q] (e : ε) (f : Unit → Program β ρ ε δ) :
    (ensure q e >>= f).exec c d = if q then (f ()).exec c d else .error e := by
  unfold ensure
  split <;> rfl

@[simp]
theorem exec_ensure_done (q : Prop) [Decidable q] (e : ε) :
    (ensure q e : Program β ρ ε Unit).exec c d = if q then .ok ((), d) else .error e := by
  unfold ensure
  split <;> rfl

@[simp]
theorem exec_attempt_bind (r : Except ε α) (f : α → Program β ρ ε δ) :
    (attempt r >>= f).exec c d =
      match r with
      | .ok a    => (f a).exec c d
      | .error e => .error e := by
  cases r <;> rfl

theorem exec_bind (p : Program β ρ ε α) (f : α → Program β ρ ε δ) :
    (p >>= f).exec c d =
      match p.exec c d with
      | .ok (a, d') => (f a).exec c d'
      | .error e    => .error e := by
  change (p.bind f).exec c d = _
  induction p generalizing d <;> simp [bind, exec, *]

theorem exec_map_ok {p : Program β ρ ε α} {f : α → δ} {r : δ × Sections β}
    (h : (f <$> p).exec c d = .ok r) : ∃ a, p.exec c d = .ok (a, r.2) ∧ r.1 = f a := by
  change (p >>= fun a => pure (f a)).exec c d = .ok r at h
  rw [exec_bind] at h
  split at h
  case h_1 a d' heq =>
    cases h
    exact ⟨a, heq, rfl⟩
  case h_2 => cases h

@[simp]
theorem exec_bind_assoc {γ : Type} (p : Program β ρ ε α) (f : α → Program β ρ ε γ)
    (g : γ → Program β ρ ε δ) :
    ((p >>= f) >>= g).exec c d = (p >>= fun a => f a >>= g).exec c d := by
  simp only [exec_bind]
  cases p.exec c d <;> rfl

@[simp]
theorem exec_ite (q : Prop) [Decidable q] (p₁ p₂ : Program β ρ ε α) :
    (if q then p₁ else p₂).exec c d = if q then p₁.exec c d else p₂.exec c d := by
  split <;> rfl

end Exec

section Replay

-- The addresses where two stores hold the same record.
def Agreeing (d₁ d₂ : Sections β) : Set ((s : σ) × κ s) :=
  { x | d₁.fetch x = d₂.fetch x }

-- Two runs of one program end alike: the same refusal, or the same result on stores that agree at
-- least on `agreed`.
inductive Alike (agreed : Set ((s : σ) × κ s)) :
    Except ε (α × Sections β) → Except ε (α × Sections β) → Prop
  | ok {a d₁ d₂} : agreed ⊆ Agreeing d₁ d₂ → Alike agreed (.ok (a, d₁)) (.ok (a, d₂))
  | error {e}    : Alike agreed (.error e) (.error e)

variable {c c₁ c₂ : (i : ι) → ρ i} {p : Program β ρ ε α} {d d' d₁ d₁' d₂ : Sections β} {a : α} {e : ε}
variable {s : σ} {k : κ s} {x : (s : σ) × κ s} {agreed agreed' : Set ((s : σ) × κ s)}

omit [DecidableEq σ] in
theorem Alike.mono {r₁ r₂ : Except ε (α × Sections β)} (hs : agreed ⊆ agreed') :
    Alike agreed' r₁ r₂ → Alike agreed r₁ r₂
  | .ok h  => .ok (hs.trans h)
  | .error => .error

theorem subset_agreeing_update {rows : Finmap (β s)} :
    Sigma.mk s '' rows.keys ∪ Agreeing d₁ d₂ ⊆ Agreeing (d₁.update s rows) (d₂.update s rows) := by
  intro x hx
  by_cases he : x ∈ Sigma.mk s '' (rows.keys : Set (κ s))
  case neg => simpa [Agreeing, fetch_update_other he] using hx.resolve_left he
  case pos =>
    obtain ⟨k, hk, rfl⟩ := he
    obtain ⟨v, hv⟩ := Finmap.mem_iff.mp (Finmap.mem_keys.mp hk)
    simp [Agreeing, fetch_update_self, hv]

theorem subset_agreeing_remove {keys : Finset (κ s)} :
    Sigma.mk s '' keys ∪ Agreeing d₁ d₂ ⊆ Agreeing (d₁.remove s keys) (d₂.remove s keys) := by
  intro x hx
  by_cases he : x ∈ Sigma.mk s '' (keys : Set (κ s))
  case neg => simpa [Agreeing, fetch_remove_other he] using hx.resolve_left he
  case pos =>
    obtain ⟨k, hk, rfl⟩ := he
    simp [Agreeing, fetch_remove_self, Finset.mem_coe.mp hk]

theorem subset_agreeing_assign {rows : Finmap (β s)} :
    { x | x.1 = s } ∪ Agreeing d₁ d₂ ⊆ Agreeing (d₁.assign s rows) (d₂.assign s rows) := by
  intro x hx
  by_cases he : x.1 = s
  case pos => obtain ⟨t, k⟩ := x; subst he; simp [Agreeing, fetch]
  case neg => simpa [Agreeing, fetch_assign_other he] using hx.resolve_left he

-- Nothing outside the footprint changes.
theorem exec_frame (h : p.exec c d = .ok (a, d')) (hx : x ∉ p.footprint c d) :
    d'.fetch x = d.fetch x := by
  induction p generalizing d <;> simp only [exec, footprint] at h hx
  case done     => cases h; rfl
  case refuse   => cases h
  case ask hi   => exact hi _ h hx
  case get hi   => exact hi _ h fun hm => hx (.inr hm)
  case items hi => exact hi _ h fun hm => hx (.inr hm)
  case update hi =>
    rw [hi h fun hm => hx (.inr hm)]
    exact fetch_update_other fun he => hx (.inl he)
  case remove hi =>
    rw [hi h fun hm => hx (.inr hm)]
    exact fetch_remove_other fun he => hx (.inl he)
  case assign hi =>
    rw [hi h fun hm => hx (.inr hm)]
    exact fetch_assign_other fun he => hx (.inl he)

-- The induction carries agreement on all addresses where the two stores agree, not only on the
-- footprint, since a write makes its own address agree from then on.
theorem replay (hc : p.questions c₁ d₁ ⊆ { i | c₁ i = c₂ i }) (hd : p.footprint c₁ d₁ ⊆ Agreeing d₁ d₂) :
    p.footprint c₂ d₂ = p.footprint c₁ d₁ ∧ p.questions c₂ d₂ = p.questions c₁ d₁ ∧
      Alike (Agreeing d₁ d₂) (p.exec c₁ d₁) (p.exec c₂ d₂) := by
  induction p generalizing d₁ d₂ <;> simp only [exec, footprint, questions] at hc hd ⊢
  case done   => exact ⟨trivial, trivial, .ok subset_rfl⟩
  case refuse => exact ⟨trivial, trivial, .error⟩
  case ask i next hi =>
    have hq : c₁ i = c₂ i := hc (.inl rfl)
    rw [← hq]
    obtain ⟨hf, hs, ha⟩ := hi _ ((Set.subset_insert _ _).trans hc) hd
    exact ⟨hf, by rw [hs], ha⟩
  case get s k next hi =>
    have hk : (d₁ s).lookup k = (d₂ s).lookup k := hd (.inl rfl)
    rw [← hk]
    obtain ⟨hf, hs, ha⟩ := hi _ hc ((Set.subset_insert _ _).trans hd)
    exact ⟨by rw [hf], hs, ha⟩
  case items s next hi =>
    have hs : d₁ s = d₂ s := by
      apply Finmap.ext_lookup
      intro k
      exact hd (a := ⟨s, k⟩) (.inl rfl)
    rw [← hs]
    obtain ⟨hf, hq, ha⟩ := hi _ hc (Set.subset_union_right.trans hd)
    exact ⟨by rw [hf], hq, ha⟩
  case update s rows next hi =>
    have hp : Sigma.mk s '' rows.keys ∪ Agreeing d₁ d₂ ⊆ Agreeing (d₁.update s rows) (d₂.update s rows) :=
      subset_agreeing_update
    have hn := Set.subset_union_right.trans hd |>.trans Set.subset_union_right |>.trans hp
    obtain ⟨hf, hs, ha⟩ := hi hc hn
    exact ⟨by rw [hf], hs, ha.mono (Set.subset_union_right.trans hp)⟩
  case remove s keys next hi =>
    have hp : Sigma.mk s '' keys ∪ Agreeing d₁ d₂ ⊆ Agreeing (d₁.remove s keys) (d₂.remove s keys) :=
      subset_agreeing_remove
    have hn := Set.subset_union_right.trans hd |>.trans Set.subset_union_right |>.trans hp
    obtain ⟨hf, hs, ha⟩ := hi hc hn
    exact ⟨by rw [hf], hs, ha.mono (Set.subset_union_right.trans hp)⟩
  case assign s rows next hi =>
    have hp : { x | x.1 = s } ∪ Agreeing d₁ d₂ ⊆ Agreeing (d₁.assign s rows) (d₂.assign s rows) :=
      subset_agreeing_assign
    have hn := Set.subset_union_right.trans hd |>.trans Set.subset_union_right |>.trans hp
    obtain ⟨hf, hs, ha⟩ := hi hc hn
    exact ⟨by rw [hf], hs, ha.mono (Set.subset_union_right.trans hp)⟩

-- Merging what the program did on `d₁` into a store that agrees with `d₁` on the footprint is
-- running the program there.
theorem exec_eq_merge [∀ s k, DecidableEq (β s k)] (hc : p.questions c₁ d₁ ⊆ { i | c₁ i = c₂ i })
    (hd : p.footprint c₁ d₁ ⊆ Agreeing d₁ d₂) (h : p.exec c₁ d₁ = .ok (a, d₁')) :
    p.exec c₂ d₂ = .ok (a, merge d₂ d₁ d₁') := by
  obtain ⟨hf, _, ha⟩ := replay hc hd
  generalize h₂ : p.exec c₂ d₂ = r₂ at ha
  rw [h] at ha
  cases ha
  case ok d₂' ha =>
    congr 2
    apply ext_fetch
    intro x
    rw [fetch_merge]
    by_cases hx : x ∈ p.footprint c₁ d₁
    case pos =>
      have hb : d₁.fetch x = d₂.fetch x := hd hx
      rw [← ha hb, ← hb]
      split
      case isTrue he  => exact he.symm
      case isFalse he => rfl
    case neg => rw [exec_frame h hx, if_pos rfl, exec_frame h₂ (hf ▸ hx)]

end Replay
end Program
