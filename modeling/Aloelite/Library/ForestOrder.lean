import Mathlib.Tactic
import Mathlib.Logic.Relation

/-! Parent-to-child relations: paths of a given length, acyclicity, and what
becomes of both when one edge is added. -/
namespace ForestOrder

open Relation

variable {α : Type*} {r r' : α → α → Prop} {a b c x y : α} {n m : ℕ}

/-- A path of `n` edges. -/
inductive Leads (r : α → α → Prop) : ℕ → α → α → Prop
  | refl (a : α) : Leads r 0 a a
  | snoc {n : ℕ} {a b c : α} (h : Leads r n a b) (hr : r b c) : Leads r (n + 1) a c

theorem leads_zero : Leads r 0 a b ↔ a = b := by
  constructor
  · intro h
    cases h
    rfl
  · rintro rfl
    exact Leads.refl a

theorem leads_succ : Leads r (n + 1) a c ↔ ∃ b, Leads r n a b ∧ r b c := by
  constructor
  · intro h
    cases h with
    | snoc h hr => exact ⟨_, h, hr⟩
  · rintro ⟨b, h, hr⟩
    exact Leads.snoc h hr

theorem Leads.cons (hr : r a b) (h : Leads r n b c) : Leads r (n + 1) a c := by
  induction h with
  | refl b => exact Leads.snoc (Leads.refl a) hr
  | snoc h hr' ih => exact Leads.snoc (ih hr) hr'

theorem leads_succ_left : Leads r (n + 1) a c ↔ ∃ b, r a b ∧ Leads r n b c := by
  constructor
  · intro h
    induction n generalizing c with
    | zero =>
      obtain ⟨b, h0, hr⟩ := leads_succ.mp h
      obtain rfl := leads_zero.mp h0
      exact ⟨c, hr, Leads.refl c⟩
    | succ n ih =>
      obtain ⟨b, hn, hr⟩ := leads_succ.mp h
      obtain ⟨d, had, hdb⟩ := ih hn
      exact ⟨d, had, Leads.snoc hdb hr⟩
  · rintro ⟨b, hr, h⟩
    exact Leads.cons hr h

theorem Leads.trans (h : Leads r n a b) (h' : Leads r m b c) : Leads r (n + m) a c := by
  induction h' with
  | refl b => exact h
  | snoc _ hr ih => exact Leads.snoc (ih h) hr

theorem reflTransGen_iff_leads : ReflTransGen r a b ↔ ∃ n, Leads r n a b := by
  constructor
  · intro h
    induction h with
    | refl => exact ⟨0, Leads.refl a⟩
    | tail _ hr ih =>
      obtain ⟨n, hn⟩ := ih
      exact ⟨n + 1, Leads.snoc hn hr⟩
  · rintro ⟨n, h⟩
    induction h with
    | refl => exact ReflTransGen.refl
    | snoc _ hr ih => exact ih.tail hr

/-- Nothing is its own proper ancestor. -/
def Acyclic (r : α → α → Prop) : Prop := ∀ a, ¬ TransGen r a a

theorem Acyclic.mono (h : Acyclic r) (hr : ∀ x y, r' x y → r x y) : Acyclic r' := by
  intro a ha
  exact h a (TransGen.mono hr a a ha)

/-- A path over the relation with the edge `a → b` added either avoids it, or
reaches `a` and goes on from `b`. -/
theorem reach_insert (hr : ∀ x y, r' x y → r x y ∨ (x = a ∧ y = b)) (h : ReflTransGen r' x y) :
    ReflTransGen r x y ∨ (ReflTransGen r x a ∧ ReflTransGen r b y) := by
  induction h with
  | refl => exact Or.inl ReflTransGen.refl
  | tail _ hstep ih =>
    rcases hr _ _ hstep with hold | ⟨rfl, rfl⟩
    · rcases ih with h | ⟨h₁, h₂⟩
      · exact Or.inl (h.tail hold)
      · exact Or.inr ⟨h₁, h₂.tail hold⟩
    · rcases ih with h | ⟨h₁, -⟩
      · exact Or.inr ⟨h, ReflTransGen.refl⟩
      · exact Or.inr ⟨h₁, ReflTransGen.refl⟩

/-- Hanging `b` under `a` makes no cycle unless `a` already lies below `b`. -/
theorem Acyclic.insert (h : Acyclic r) (hr : ∀ x y, r' x y → r x y ∨ (x = a ∧ y = b))
    (hab : ¬ ReflTransGen r b a) : Acyclic r' := by
  intro x hx
  obtain ⟨y, hxy, hyx⟩ := TransGen.tail'_iff.mp hx
  rcases hr _ _ hyx with hold | ⟨rfl, rfl⟩
  · -- the closing edge is old, so the new one, if used, lies inside the path
    rcases reach_insert hr hxy with hpath | ⟨hxa, hby⟩
    · exact h x (TransGen.tail' hpath hold)
    · exact hab ((hby.tail hold).trans hxa)
  · rcases reach_insert hr hxy with hpath | ⟨hba, -⟩
    · exact hab hpath
    · exact hab hba

/-- A path to a point not below `n` stays when only edges to points below `n` go. -/
theorem reach_avoiding {z : α} (hkeep : ∀ x y, r x y → ¬ ReflTransGen r z y → r' x y)
    (hb : ¬ ReflTransGen r z b) (h : ReflTransGen r a b) : ReflTransGen r' a b := by
  induction h with
  | refl => exact ReflTransGen.refl
  | tail _ hstep ih =>
    have hbefore := ih (fun hz => hb (hz.tail hstep))
    exact hbefore.tail (hkeep _ _ hstep hb)

/-- Two points above a third are above one another, where inner points have one predecessor. -/
theorem reach_comparable {p : α → Prop} (hinner : ∀ x y, r x y → p x)
    (hsingle : ∀ x y z, p z → r x z → r y z → x = y) (hc : p c) (ha : ReflTransGen r a c)
    (hb : ReflTransGen r b c) :
    ReflTransGen r a b ∨ ReflTransGen r b a := by
  induction ha with
  | refl => exact Or.inr hb
  | @tail x y hax hxy ih =>
    rcases ReflTransGen.cases_tail hb with heq | ⟨z, hbz, hzy⟩
    · rw [← heq]
      exact Or.inl (hax.tail hxy)
    · obtain rfl := hsingle z x y hc hzy hxy
      exact ih (hinner z y hzy) hbz

/-- Nothing is reached from a point without successors. -/
theorem reach_of_isolated (h : ∀ y, ¬ r a y) (hreach : ReflTransGen r a b) : b = a := by
  rcases ReflTransGen.cases_head hreach with heq | ⟨c, hac, -⟩
  · exact heq.symm
  · exact absurd hac (h c)

/-- Where nothing is below itself a path is no longer than there are ends of edges. -/
theorem Acyclic.leads_le {S : Finset α} (h : Acyclic r)
    (hS : ∀ x y, r x y → y ∈ S) (hab : Leads r m a b) : m ≤ S.card := by
  classical
  have hbelow : ∀ m a, Leads r m a b → m ≤ (S.filter (fun x => TransGen r a x)).card := by
    intro m
    induction m with
    | zero => exact fun a _ => Nat.zero_le _
    | succ m ih =>
      intro a hm
      obtain ⟨x, hax, hxb⟩ := leads_succ_left.mp hm
      have hin : x ∉ S.filter (fun y => TransGen r x y) := fun hx => h x (Finset.mem_filter.mp hx).2
      have hsub : Insert.insert x (S.filter (fun y => TransGen r x y)) ⊆
          S.filter (fun y => TransGen r a y) := by
        intro y hy
        rw [Finset.mem_insert, Finset.mem_filter] at hy
        rw [Finset.mem_filter]
        rcases hy with rfl | ⟨hyS, hxy⟩
        · exact ⟨hS a y hax, TransGen.single hax⟩
        · exact ⟨hyS, TransGen.head hax hxy⟩
      have hcard := Finset.card_le_card hsub
      rw [Finset.card_insert_of_notMem hin] at hcard
      have hm := ih x hxb
      omega
  exact (hbelow m a hab).trans (Finset.card_filter_le _ _)

/-! ### Short cycles -/

/-- The same with lengths: a path over the relation with `a → b` added avoids it, or the
way to `a` and the way on from `b` are together shorter. -/
theorem leads_insert (hr : ∀ x y, r' x y → r x y ∨ (x = a ∧ y = b)) (h : Leads r' n x y) :
    Leads r n x y ∨ ∃ i j, i + j < n ∧ Leads r i x a ∧ Leads r j b y := by
  induction h with
  | refl x => exact Or.inl (Leads.refl x)
  | snoc _ hstep ih =>
    rcases hr _ _ hstep with hold | ⟨rfl, rfl⟩
    · rcases ih with h | ⟨i, j, hlt, hxa, hby⟩
      · exact Or.inl (h.snoc hold)
      · exact Or.inr ⟨i, j + 1, by omega, hxa, hby.snoc hold⟩
    · rcases ih with h | ⟨i, j, hlt, hxa, -⟩
      · exact Or.inr ⟨_, 0, by omega, h, Leads.refl _⟩
      · exact Or.inr ⟨i, 0, by omega, hxa, Leads.refl _⟩

theorem Leads.mono (hr : ∀ x y, r' x y → r x y) (h : Leads r' n a b) : Leads r n a b := by
  induction h with
  | refl a => exact Leads.refl a
  | snoc _ hstep ih => exact ih.snoc (hr _ _ hstep)

/-- Nothing is reached from a point without successors but the point itself. -/
theorem leads_of_isolated (h : ∀ y, ¬ r a y) (hreach : Leads r n a b) : b = a :=
  reach_of_isolated h (reflTransGen_iff_leads.mpr ⟨n, hreach⟩)

/-- No point leads back to itself within `cap` edges. -/
def NoShortCycle (cap : ℕ) (r : α → α → Prop) : Prop := ∀ a, ∀ n < cap, ¬ Leads r (n + 1) a a

theorem NoShortCycle.mono {cap : ℕ} (h : NoShortCycle cap r) (hr : ∀ x y, r' x y → r x y) :
    NoShortCycle cap r' := by
  intro a n hn hcycle
  exact h a n hn (hcycle.mono hr)

/-- Hanging `b` under `a` closes no short cycle unless `a` lies near below `b`. -/
theorem NoShortCycle.insert {cap : ℕ} (h : NoShortCycle cap r)
    (hr : ∀ x y, r' x y → r x y ∨ (x = a ∧ y = b)) (hab : ∀ n < cap, ¬ Leads r n b a) :
    NoShortCycle cap r' := by
  intro x n hn hcycle
  rcases leads_insert hr hcycle with hold | ⟨i, j, hlt, hxa, hbx⟩
  · exact h x n hn hold
  · exact hab (j + i) (by omega) (hbx.trans hxa)

/-- A path splits at every length. -/
theorem Leads.split (h : Leads r (n + m) a c) : ∃ b, Leads r n a b ∧ Leads r m b c := by
  induction m generalizing c with
  | zero => exact ⟨c, h, Leads.refl c⟩
  | succ m ih =>
    obtain ⟨d, had, hdc⟩ := leads_succ.mp h
    obtain ⟨b, hab, hbd⟩ := ih had
    exact ⟨b, hab, hbd.snoc hdc⟩

/-- Going up a given number of edges ends at one point, where inner points have one
predecessor. -/
theorem leads_back_unique {p : α → Prop} (hinner : ∀ x y, r x y → p x)
    (hsingle : ∀ x y z, p z → r x z → r y z → x = y) (hc : p c) (ha : Leads r n a c)
    (hb : Leads r n b c) : a = b := by
  induction n generalizing c with
  | zero => exact (leads_zero.mp ha).trans (leads_zero.mp hb).symm
  | succ n ih =>
    obtain ⟨x, hax, hxc⟩ := leads_succ.mp ha
    obtain ⟨y, hby, hyc⟩ := leads_succ.mp hb
    obtain rfl := hsingle x y c hc hxc hyc
    exact ih (hinner _ _ hxc) hax hby

/-- Below a point the distance to an inner point is one number, as far as no cycle is
shorter. -/
theorem NoShortCycle.distance_unique {cap : ℕ} {p : α → Prop} (h : NoShortCycle cap r)
    (hinner : ∀ x y, r x y → p x) (hsingle : ∀ x y z, p z → r x z → r y z → x = y) (hc : p c)
    (hn : n ≤ cap) (hm : m ≤ cap) (ha : Leads r n a c) (hb : Leads r m a c) : n = m := by
  wlog hle : n ≤ m generalizing n m
  · exact (this hm hn hb ha (by omega)).symm
  obtain ⟨d, rfl⟩ := Nat.exists_eq_add_of_le' hle
  obtain ⟨b, hab, hbc⟩ := hb.split
  obtain rfl := leads_back_unique hinner hsingle hc ha hbc
  cases d with
  | zero => rw [Nat.zero_add]
  | succ d => exact absurd hab (h a d (by omega))

end ForestOrder
