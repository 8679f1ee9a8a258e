import Aloelite.Library.Patches

/-! Stretches of a list that were written and not yet put in place: a write takes in
the stretches it meets, a read lays them over what is underneath, and putting them in
place one by one leaves what all the writes leave. -/
namespace Extents

open Patches

variable {α : Type*} {z : α} {xs ys : List α} {off i : ℕ} {e e' new : ℕ × List α}
  {es : List (ℕ × List α)} {b : α}

/-- The first position behind a stretch. -/
def stop (e : ℕ × List α) : ℕ := e.1 + e.2.length

/-- What a stretch has at a position. -/
def read? (e : ℕ × List α) (i : ℕ) : Option α := if e.1 ≤ i then e.2[i - e.1]? else none

/-- Neither meets nor touches. -/
def Clear (e e' : ℕ × List α) : Prop := stop e < e'.1 ∨ stop e' < e.1

instance (e e' : ℕ × List α) : Decidable (Clear e e') := inferInstanceAs (Decidable (_ ∨ _))

/-- A new stretch with what an old one has before it. -/
def withFront (e new : ℕ × List α) : ℕ × List α :=
  if e.1 < new.1 then (e.1, e.2.take (new.1 - e.1) ++ new.2) else new

/-- A new stretch with what an old one has behind it. -/
def withBack (e new : ℕ × List α) : ℕ × List α :=
  if stop new < stop e then (new.1, new.2 ++ e.2.drop (stop new - e.1)) else new

/-- A new stretch with an old one it meets or touches around it. -/
def join (e new : ℕ × List α) : ℕ × List α := withBack e (withFront e new)

/-- The stretches a new one leaves alone, and the new one with the others taken in. -/
def absorb (new : ℕ × List α) : List (ℕ × List α) → List (ℕ × List α) × (ℕ × List α)
  | [] => ([], new)
  | e :: es =>
    if Clear e new then
      let r := absorb new es
      (e :: r.1, r.2)
    else absorb (join e new) es

/-- The stretches after a write, by their beginnings. -/
def write (es : List (ℕ × List α)) (off : ℕ) (ys : List α) : List (ℕ × List α) :=
  let r := absorb (off, ys) es
  (r.1 ++ [r.2]).insertionSort (fun e e' => e.1 ≤ e'.1)

/-- Every stretch put in place. -/
def lay (z : α) (xs : List α) (es : List (ℕ × List α)) : List α :=
  es.foldl (fun xs e => patch z xs e.1 e.2) xs

/-- The first position behind all stretches. -/
def ends (es : List (ℕ × List α)) : ℕ := (es.map stop).foldr max 0

/-- Stretches that hold something and keep off each other. -/
structure Apart (es : List (ℕ × List α)) : Prop where
  clear : es.Pairwise Clear
  filled : ∀ e ∈ es, e.2 ≠ []

/-! ### One stretch -/

theorem read?_eq_none : read? e i = none ↔ i < e.1 ∨ stop e ≤ i := by
  rw [read?, stop]
  split
  · rw [List.getElem?_eq_none_iff]
    omega
  · simp only [true_iff]
    omega

theorem read?_isSome (h : read? e i = some b) : e.1 ≤ i ∧ i < stop e := by
  have hne : ¬ (i < e.1 ∨ stop e ≤ i) := by
    rw [← read?_eq_none, h]
    exact Option.some_ne_none b
  omega

theorem Clear.symm (h : Clear e e') : Clear e' e := Or.symm h

/-- Stretches off each other have nothing at the same position. -/
theorem Clear.read?_none (h : Clear e e') (hb : read? e i = some b) : read? e' i = none := by
  have hin := read?_isSome hb
  rw [read?_eq_none]
  unfold Clear at h
  omega

theorem read?_append (x : ℕ) (us vs : List α) :
    read? (x, us ++ vs) i = (read? (x, us) i).or (read? (x + us.length, vs) i) := by
  simp only [read?]
  by_cases hx : x ≤ i
  · rw [if_pos hx, if_pos hx, List.getElem?_append]
    by_cases hlt : i - x < us.length
    · rw [if_pos hlt, List.getElem?_eq_getElem hlt]
      rfl
    · have hle : x + us.length ≤ i := by omega
      rw [if_neg hlt, if_pos hle, List.getElem?_eq_none (not_lt.mp hlt), Option.none_or]
      congr 1
      omega
  · rw [if_neg hx, if_neg hx, if_neg (by omega)]
    rfl

theorem read?_take (x n : ℕ) (us : List α) (h : i < x + n) :
    read? (x, us.take n) i = read? (x, us) i := by
  simp only [read?]
  split
  · rw [List.getElem?_take_of_lt (by omega)]
  · rfl

theorem read?_drop (x n : ℕ) (us : List α) (h : x + n ≤ i) :
    read? (x + n, us.drop n) i = read? (x, us) i := by
  simp only [read?]
  rw [if_pos h, if_pos (by omega), List.getElem?_drop]
  congr 1
  omega

theorem fst_withFront : (withFront e new).1 = min e.1 new.1 := by
  unfold withFront
  split
  · omega
  · omega

theorem stop_withFront (h : ¬ Clear e new) : stop (withFront e new) = stop new := by
  unfold Clear stop at h
  unfold withFront
  split
  · simp only [stop, List.length_append, List.length_take]
    omega
  · rfl

theorem read?_withFront (h : ¬ Clear e new) :
    read? (withFront e new) i = if i < new.1 then read? e i else read? new i := by
  unfold Clear stop at h
  unfold withFront
  split
  next hlow =>
    have hlen : (e.2.take (new.1 - e.1)).length = new.1 - e.1 := by
      rw [List.length_take]
      omega
    rw [read?_append, hlen, Nat.add_sub_cancel' hlow.le]
    by_cases hi : i < new.1
    · have hnone : read? (new.1, new.2) i = none := read?_eq_none.mpr (Or.inl hi)
      rw [if_pos hi, read?_take _ _ _ (by omega), hnone, Option.or_none]
    · have hnone : read? (e.1, e.2.take (new.1 - e.1)) i = none := by
        rw [read?_eq_none, stop, hlen]
        omega
      rw [if_neg hi, hnone, Option.none_or]
  next hlow =>
    by_cases hi : i < new.1
    · have hnone : read? e i = none := read?_eq_none.mpr (Or.inl (by omega))
      rw [if_pos hi, hnone]
      exact read?_eq_none.mpr (Or.inl hi)
    · rw [if_neg hi]

theorem fst_withBack : (withBack e new).1 = new.1 := by
  unfold withBack
  split
  · rfl
  · rfl

theorem stop_withBack (h : e.1 ≤ stop new) : stop (withBack e new) = max (stop e) (stop new) := by
  unfold withBack
  split
  · simp only [stop, List.length_append, List.length_drop] at *
    omega
  · omega

theorem read?_withBack (h : e.1 ≤ stop new) :
    read? (withBack e new) i = if i < stop new then read? new i else read? e i := by
  unfold withBack
  split
  next hlt =>
    have hdrop : stop new ≤ i → read? (stop new, e.2.drop (stop new - e.1)) i = read? e i := by
      intro hi
      have hfrom := read?_drop (i := i) e.1 (stop new - e.1) e.2 (by omega)
      rw [Nat.add_sub_cancel' h] at hfrom
      exact hfrom
    rw [read?_append]
    change (read? new i).or (read? (stop new, e.2.drop (stop new - e.1)) i) = _
    by_cases hi : i < stop new
    · have hnone : read? (stop new, e.2.drop (stop new - e.1)) i = none :=
        read?_eq_none.mpr (Or.inl hi)
      rw [if_pos hi, hnone, Option.or_none]
    · have hnone : read? new i = none := read?_eq_none.mpr (Or.inr (not_lt.mp hi))
      rw [if_neg hi, hnone, Option.none_or, hdrop (not_lt.mp hi)]
  next hge =>
    by_cases hi : i < stop new
    · rw [if_pos hi]
    · have hnew : read? new i = none := read?_eq_none.mpr (Or.inr (not_lt.mp hi))
      have hold : read? e i = none := read?_eq_none.mpr (Or.inr (by omega))
      rw [if_neg hi, hnew, hold]

theorem meets_withFront (h : ¬ Clear e new) : e.1 ≤ stop (withFront e new) := by
  rw [stop_withFront h]
  unfold Clear at h
  omega

theorem fst_join : (join e new).1 = min e.1 new.1 := by
  rw [join, fst_withBack, fst_withFront]

theorem stop_join (h : ¬ Clear e new) : stop (join e new) = max (stop e) (stop new) := by
  rw [join, stop_withBack (meets_withFront h), stop_withFront h]

/-- A join has what the new stretch has, and elsewhere what the old one has. -/
theorem read?_join (h : ¬ Clear e new) : read? (join e new) i = (read? new i).or (read? e i) := by
  rw [join, read?_withBack (meets_withFront h), stop_withFront h, read?_withFront h]
  by_cases hin : new.1 ≤ i ∧ i < stop new
  · have hsome : (read? new i).isSome := by
      rw [Option.isSome_iff_ne_none, ne_eq, read?_eq_none]
      omega
    obtain ⟨b, hb⟩ := Option.isSome_iff_exists.mp hsome
    rw [if_pos hin.2, if_neg (by omega), hb, Option.some_or]
  · have hnone : read? new i = none := read?_eq_none.mpr (by omega)
    rw [hnone, Option.none_or]
    by_cases hlow : i < new.1
    · rw [if_pos hlow, ite_self]
    · rw [if_neg (by omega)]

theorem Clear.join {o : ℕ × List α} (h : ¬ Clear e new) (he : Clear o e) (hnew : Clear o new) :
    Clear o (join e new) := by
  have hfst : (Extents.join e new).1 = min e.1 new.1 := fst_join
  have hstop := stop_join h
  have ho : o.1 ≤ stop o := Nat.le_add_right _ _
  unfold Clear at *
  omega

/-! ### Several -/

theorem Apart.nil : Apart ([] : List (ℕ × List α)) :=
  ⟨List.Pairwise.nil, fun _ h => absurd h List.not_mem_nil⟩

theorem ends_cons : ends (e :: es) = max (stop e) (ends es) := rfl

/-- What is left alone keeps off what the new stretch has become. -/
theorem absorb_clear {o : ℕ × List α} (hes : ∀ e ∈ es, Clear o e) (hnew : Clear o new) :
    Clear o (absorb new es).2 := by
  induction es generalizing new with
  | nil => exact hnew
  | cons e es ih =>
    have htail : ∀ e' ∈ es, Clear o e' := fun e' he' => hes e' (List.mem_cons_of_mem _ he')
    rw [absorb]
    split
    · exact ih htail hnew
    next hmeets => exact ih htail (Clear.join hmeets (hes e List.mem_cons_self) hnew)

theorem absorb_sublist : (absorb new es).1.Sublist es := by
  induction es generalizing new with
  | nil => exact List.Sublist.refl _
  | cons e es ih =>
    rw [absorb]
    split
    · exact ih.cons_cons e
    · exact ih.cons e

theorem absorb_off (h : es.Pairwise Clear) :
    ∀ e ∈ (absorb new es).1, Clear e (absorb new es).2 := by
  induction es generalizing new with
  | nil =>
    intro e he
    cases he
  | cons e es ih =>
    obtain ⟨hhead, htail⟩ := List.pairwise_cons.mp h
    intro e' he'
    rw [absorb] at he' ⊢
    split at he'
    next hclear =>
      rw [if_pos hclear]
      rcases List.mem_cons.mp he' with rfl | he'
      · exact absorb_clear hhead hclear
      · exact ih htail e' he'
    next hmeets =>
      rw [if_neg hmeets]
      exact ih htail e' he'

theorem absorb_filled (h : new.2 ≠ []) : (absorb new es).2.2 ≠ [] := by
  have hpos : new.1 < stop new → (absorb new es).2.1 < stop (absorb new es).2 := by
    clear h
    induction es generalizing new with
    | nil => exact id
    | cons e es ih =>
      rw [absorb]
      split
      · exact ih
      next hmeets =>
        intro hlt
        apply ih
        rw [fst_join, stop_join hmeets]
        omega
  have hnew : 0 < new.2.length := List.length_pos_iff.mpr h
  have hlen := hpos (Nat.lt_add_of_pos_right hnew)
  rw [stop] at hlen
  apply List.ne_nil_of_length_pos
  omega

/-- What is there after the taking in: what the new stretch has, else what an old one
has. -/
theorem absorb_read (h : es.Pairwise Clear) :
    ((∃ e ∈ (absorb new es).1, read? e i = some b) ∨ read? (absorb new es).2 i = some b) ↔
      read? new i = some b ∨ (read? new i = none ∧ ∃ e ∈ es, read? e i = some b) := by
  induction es generalizing new with
  | nil => simp [absorb]
  | cons e es ih =>
    obtain ⟨hhead, htail⟩ := List.pairwise_cons.mp h
    have hother : read? e i = some b → ¬ ∃ b', read? new i = some b' ∧ Clear e new := by
      intro hb hsome
      obtain ⟨b', hb', hclear⟩ := hsome
      rw [hclear.read?_none hb] at hb'
      cases hb'
    rw [absorb]
    split
    next hclear =>
      have hnone : read? e i = some b → read? new i = none := hclear.read?_none
      simp only [List.exists_mem_cons_iff, or_assoc, ih htail]
      tauto
    next hmeets =>
      rw [ih htail, read?_join hmeets]
      simp only [List.exists_mem_cons_iff, Option.or_eq_some_iff, Option.or_eq_none_iff]
      have halone : ∀ b', read? e i = some b' → ¬ ∃ e' ∈ es, read? e' i = some b := by
        intro b' hb' hsome
        obtain ⟨e', he', hb⟩ := hsome
        rw [(hhead e' he').read?_none hb'] at hb
        cases hb
      cases hnew : read? new i with
      | some b' => simp
      | none =>
        cases hold : read? e i with
        | some b' =>
          have hno := halone b' hold
          simp [hno]
        | none => simp

theorem mem_write {d : List α} : e ∈ write es off d ↔ e ∈ (absorb (off, d) es).1 ∨
    e = (absorb (off, d) es).2 := by
  rw [write, List.mem_insertionSort, List.mem_append, List.mem_singleton]

theorem Apart.write {d : List α} (h : Apart es) (hd : d ≠ []) : Apart (write es off d) := by
  constructor
  · rw [Extents.write, (List.perm_insertionSort _ _).pairwise_iff Clear.symm, List.pairwise_append]
    refine ⟨h.clear.sublist absorb_sublist, List.pairwise_singleton _ _, ?_⟩
    intro e he e' he'
    rw [List.mem_singleton.mp he']
    exact absorb_off h.clear e he
  · intro e he
    rcases mem_write.mp he with he | rfl
    · exact h.filled e (absorb_sublist.subset he)
    · exact absorb_filled hd

theorem read_write {d : List α} (h : Apart es) : (∃ e ∈ write es off d, read? e i = some b) ↔
    read? (off, d) i = some b ∨ (read? (off, d) i = none ∧ ∃ e ∈ es, read? e i = some b) := by
  rw [← absorb_read h.clear]
  simp only [mem_write]
  constructor
  · intro h
    obtain ⟨e, he | rfl, hb⟩ := h
    · exact Or.inl ⟨e, he, hb⟩
    · exact Or.inr hb
  · intro h
    rcases h with ⟨e, he, hb⟩ | hb
    · exact ⟨e, Or.inl he, hb⟩
    · exact ⟨_, Or.inr rfl, hb⟩

/-! ### What is put in place -/

theorem getElem?_patch : (patch z xs off ys)[i]? =
    (read? (off, ys) i).or (if i < max xs.length (off + ys.length) then
      some (xs[i]?.getD z) else none) := by
  have hbase : (xs ++ List.replicate (off - xs.length) z)[i]? =
      if i < max xs.length off then some (xs[i]?.getD z) else none := by
    rw [List.getElem?_append, List.getElem?_replicate]
    by_cases hi : i < xs.length
    · rw [if_pos hi, if_pos (by omega), List.getElem?_eq_getElem hi, Option.getD_some]
    · rw [if_neg hi, List.getElem?_eq_none (not_lt.mp hi), Option.getD_none]
      by_cases hoff : i < off
      · rw [if_pos (by omega), if_pos (by omega)]
      · rw [if_neg (by omega), if_neg (by omega)]
  have hfront : ((xs ++ List.replicate (off - xs.length) z).take off).length = off := by
    rw [List.length_take, List.length_append, List.length_replicate]
    omega
  rw [patch, List.append_assoc, List.getElem?_append, hfront]
  by_cases hlow : i < off
  · have hnone : read? (off, ys) i = none := read?_eq_none.mpr (Or.inl hlow)
    rw [if_pos hlow, hnone, Option.none_or, List.getElem?_take_of_lt hlow, hbase, if_pos (by omega),
      if_pos (by omega)]
  · rw [if_neg hlow, List.getElem?_append]
    by_cases hin : i - off < ys.length
    · have hsome : read? (off, ys) i = some (ys[i - off]) := by
        rw [read?, if_pos (not_lt.mp hlow), List.getElem?_eq_getElem hin]
      rw [if_pos hin, hsome, Option.some_or, List.getElem?_eq_getElem hin]
    · have hnone : read? (off, ys) i = none := by
        rw [read?_eq_none]
        exact Or.inr (by
          change off + ys.length ≤ i
          omega)
      have hback : off + ys.length + (i - off - ys.length) = i := by omega
      rw [if_neg hin, hnone, Option.none_or, List.getElem?_drop, hback, hbase]
      by_cases hi : i < xs.length
      · rw [if_pos (by omega), if_pos (by omega)]
      · rw [if_neg (by omega), if_neg (by omega)]

theorem lt_ends : i < ends es ↔ ∃ e ∈ es, i < stop e := by
  induction es with
  | nil => simp [ends]
  | cons e es ih =>
    rw [ends_cons, lt_max_iff, ih]
    simp

theorem lt_ends_write {d : List α} : i < ends (write es off d) ↔ i < off + d.length ∨
    i < ends es := by
  have habsorb : ∀ new : ℕ × List α,
      ((∃ e ∈ (absorb new es).1, i < stop e) ∨ i < stop (absorb new es).2) ↔
      i < stop new ∨ ∃ e ∈ es, i < stop e := by
    induction es with
    | nil => simp [absorb]
    | cons e es ih =>
      intro new
      rw [absorb]
      split
      · simp only [List.exists_mem_cons_iff, or_assoc, ih]
        tauto
      next hmeets =>
        rw [ih, stop_join hmeets, lt_max_iff]
        simp only [List.exists_mem_cons_iff]
        tauto
  rw [lt_ends, lt_ends]
  refine Iff.trans ?_ (habsorb (off, d))
  simp only [mem_write]
  constructor
  · intro h
    obtain ⟨e, he | rfl, hi⟩ := h
    · exact Or.inl ⟨e, he, hi⟩
    · exact Or.inr hi
  · intro h
    rcases h with ⟨e, he, hi⟩ | hi
    · exact ⟨e, Or.inl he, hi⟩
    · exact ⟨_, Or.inr rfl, hi⟩

theorem lay_cons : lay z xs (e :: es) = lay z (patch z xs e.1 e.2) es := rfl

/-- Where no stretch has anything, what was there stays, and gaps are filled. -/
theorem lay_rest (hnone : ∀ e ∈ es, read? e i = none) :
    (lay z xs es)[i]? = if i < max xs.length (ends es) then some (xs[i]?.getD z) else none := by
  induction es generalizing xs with
  | nil =>
    change xs[i]? = if i < max xs.length 0 then _ else _
    rw [Nat.max_zero]
    split
    next hi => rw [List.getElem?_eq_getElem hi, Option.getD_some]
    next hi => rw [List.getElem?_eq_none (not_lt.mp hi)]
  | cons e es ih =>
    have hhead : read? (e.1, e.2) i = none := hnone e List.mem_cons_self
    rw [lay_cons, ih (fun e' he' => hnone e' (List.mem_cons_of_mem _ he')), length_patch,
      getElem?_patch, hhead,
      Option.none_or, ends_cons, stop, max_assoc]
    split
    next hi =>
      split
      · rw [Option.getD_some]
      next hle => rw [Option.getD_none, List.getElem?_eq_none (by omega), Option.getD_none]
    · rfl

/-- Where a stretch has something, that is what is put in place. -/
theorem lay_read (h : es.Pairwise Clear) (he : ∃ e ∈ es, read? e i = some b) :
    (lay z xs es)[i]? = some b := by
  induction es generalizing xs with
  | nil =>
    obtain ⟨e, he, -⟩ := he
    cases he
  | cons e es ih =>
    obtain ⟨hhead, htail⟩ := List.pairwise_cons.mp h
    obtain ⟨e', he', hb⟩ := he
    rw [lay_cons]
    rcases List.mem_cons.mp he' with rfl | he'
    · have hnone : ∀ e ∈ es, read? e i = none := fun e he => (hhead e he).read?_none hb
      have hin := read?_isSome hb
      have hlt : i < max (max xs.length (e'.1 + e'.2.length)) (ends es) :=
        lt_max_of_lt_left (lt_max_of_lt_right hin.2)
      rw [lay_rest hnone, length_patch, getElem?_patch, hb, Option.some_or,
        Option.getD_some, if_pos hlt]
    · exact ih htail ⟨e', he', hb⟩

/-- Every position at once. -/
theorem getElem?_lay (h : es.Pairwise Clear) : (lay z xs es)[i]? = (es.findSome? (read? · i)).or
    (if i < max xs.length (ends es) then some (xs[i]?.getD z) else none) := by
  cases hfind : es.findSome? (read? · i) with
  | none => exact lay_rest (List.findSome?_eq_none_iff.mp hfind)
  | some b =>
    obtain ⟨e, he, hb⟩ := List.exists_of_findSome?_eq_some hfind
    rw [Option.some_or]
    exact lay_read h ⟨e, he, hb⟩

theorem length_lay (h : es.Pairwise Clear) : (lay z xs es).length = max xs.length (ends es) := by
  have hlt : ∀ j, j < (lay z xs es).length ↔ j < max xs.length (ends es) := by
    intro j
    rw [← not_iff_not, not_lt, ← List.getElem?_eq_none_iff, getElem?_lay h, Option.or_eq_none_iff]
    constructor
    · intro hnone
      by_contra hj
      rw [if_pos hj] at hnone
      cases hnone.2
    · intro hj
      refine ⟨?_, if_neg hj⟩
      rw [List.findSome?_eq_none_iff]
      intro e he
      rw [read?_eq_none]
      by_contra hin
      have hend : j < ends es := lt_ends.mpr ⟨e, he, by omega⟩
      omega
  have h₁ := hlt (lay z xs es).length
  have h₂ := hlt (max xs.length (ends es))
  omega

/-- A write before the stretches are put in place is a write after. -/
theorem lay_write {d : List α} (h : Apart es) (hd : d ≠ []) :
    lay z xs (write es off d) = patch z (lay z xs es) off d := by
  apply List.ext_getElem?
  intro i
  have hwrite : (write es off d).Pairwise Clear := (h.write hd).clear
  have hbound : i < max (lay z xs es).length (off + d.length) ↔
      i < max xs.length (ends (write es off d)) := by
    rw [length_lay h.clear, lt_max_iff, lt_max_iff, lt_max_iff, lt_ends_write]
    tauto
  rw [getElem?_patch]
  cases hnew : read? (off, d) i with
  | some b =>
    rw [Option.some_or]
    exact lay_read hwrite ((read_write h).mpr (Or.inl hnew))
  | none =>
    rw [Option.none_or]
    by_cases hsome : ∃ b, ∃ e ∈ es, read? e i = some b
    · obtain ⟨b, hold⟩ := hsome
      have hread : (lay z xs es)[i]? = some b := lay_read h.clear hold
      have hin : i < (lay z xs es).length := (List.getElem?_eq_some_iff.mp hread).1
      rw [if_pos (lt_max_of_lt_left hin), hread, Option.getD_some]
      exact lay_read hwrite ((read_write h).mpr (Or.inr ⟨hnew, hold⟩))
    · have hnone : ∀ e ∈ es, read? e i = none := by
        intro e he
        rw [Option.eq_none_iff_forall_ne_some]
        exact fun b hb => hsome ⟨b, e, he, hb⟩
      have hnone' : ∀ e ∈ write es off d, read? e i = none := by
        intro e he
        rw [Option.eq_none_iff_forall_ne_some]
        intro b hb
        rcases (read_write h).mp ⟨e, he, hb⟩ with hb' | ⟨-, hold⟩
        · rw [hnew] at hb'
          cases hb'
        · exact hsome ⟨b, hold⟩
      rw [lay_rest hnone', lay_rest hnone]
      by_cases hi : i < max xs.length (ends (write es off d))
      · rw [if_pos hi, if_pos (hbound.mpr hi)]
        split
        · rw [Option.getD_some]
        next hle =>
          rw [Option.getD_none, List.getElem?_eq_none (by omega), Option.getD_none]
      · rw [if_neg hi, if_neg (fun hlt => hi (hbound.mp hlt))]

/-! ### Order and repetition -/

theorem stop_absorb : stop new ≤ stop (absorb new es).2 ∧ stop (absorb new es).2 ≤
    max (stop new) (ends es) := by
  induction es generalizing new with
  | nil => exact ⟨le_refl _, le_max_left _ _⟩
  | cons e es ih =>
    rw [absorb, ends_cons]
    split
    · obtain ⟨hge, hle⟩ := @ih new
      exact ⟨hge, hle.trans (max_le_max_left _ (le_max_right _ _))⟩
    next hmeets =>
      have hrest := @ih (join e new)
      rw [stop_join hmeets] at hrest
      omega

/-- After a write the stretches stand in order, with a gap after each. -/
theorem write_ordered {d : List α} (h : Apart es) (hd : d ≠ []) :
    (write es off d).Pairwise (fun e e' => stop e < e'.1) := by
  have hsorted : (write es off d).Pairwise (fun e e' => e.1 ≤ e'.1) := by
    have htotal : Std.Total (fun e e' : ℕ × List α => e.1 ≤ e'.1) :=
      ⟨fun e e' => Nat.le_total e.1 e'.1⟩
    have htrans : IsTrans (ℕ × List α) (fun e e' => e.1 ≤ e'.1) :=
      ⟨fun _ _ _ hab hbc => Nat.le_trans hab hbc⟩
    exact List.pairwise_insertionSort _ _
  refine (hsorted.and (h.write hd).clear).imp ?_
  rintro e e' ⟨hle, hbefore | hafter⟩
  · exact hbefore
  · have hstop : e'.1 ≤ stop e' := Nat.le_add_right _ _
    omega

theorem ends_append {fs : List (ℕ × List α)} : ends (es ++ fs) = max (ends es) (ends fs) := by
  induction es with
  | nil => exact (Nat.zero_max _).symm
  | cons e es ih => rw [List.cons_append, ends_cons, ends_cons, ih, Nat.max_assoc]

/-- To put all in place where some are in place already makes no difference. -/
theorem lay_again {fs : List (ℕ × List α)} (h : (es ++ fs).Pairwise Clear) :
    lay z (lay z xs es) (es ++ fs) = lay z xs (es ++ fs) := by
  have hes : es.Pairwise Clear := (List.pairwise_append.mp h).1
  apply List.ext_getElem?
  intro i
  rw [getElem?_lay h, getElem?_lay h, length_lay hes, ends_append]
  cases hfind : (es ++ fs).findSome? (read? · i) with
  | some b => rfl
  | none =>
    have hnone : ∀ e ∈ es, read? e i = none := fun e he =>
      List.findSome?_eq_none_iff.mp hfind e (List.mem_append_left fs he)
    rw [Option.none_or, Option.none_or, lay_rest hnone]
    by_cases hi : i < max xs.length (ends es)
    · rw [if_pos hi, Option.getD_some]
      congr 1
      rw [eq_iff_iff]
      omega
    · rw [if_neg hi, Option.getD_none, List.getElem?_eq_none (by omega), Option.getD_none]
      congr 1
      rw [eq_iff_iff]
      omega

/-! ### Reading through the stretches -/

/-- The part of a stretch that falls into a window. -/
def within (off stop' : ℕ) (e : ℕ × List α) : List α :=
  (e.2.take (min (stop e) stop' - e.1)).drop (max e.1 off - e.1)

/-- A window of what is underneath with the stretches laid over it. -/
def overlay (z : α) (off stop' : ℕ) (window : List α) (es : List (ℕ × List α)) : List α :=
  es.foldl (fun w e => if stop e ≤ off ∨ stop' ≤ e.1 then w
    else patch z w (max e.1 off - off) (within off stop' e)) window

theorem read?_within {off stop' : ℕ} (hi : off + i < stop') :
    read? (max e.1 off - off, within off stop' e) i = read? e (off + i) := by
  simp only [read?, within]
  by_cases hle : e.1 ≤ off + i
  · rw [if_pos hle, if_pos (by omega), List.getElem?_drop]
    have hpos : max e.1 off - e.1 + (i - (max e.1 off - off)) = off + i - e.1 := by omega
    rw [hpos]
    by_cases hlt : off + i < stop e
    · rw [List.getElem?_take_of_lt (by omega)]
    · have hlen : e.2.length ≤ off + i - e.1 := by
        unfold stop at hlt
        omega
      rw [List.getElem?_eq_none hlen, List.getElem?_eq_none]
      rw [List.length_take]
      exact (min_le_right _ _).trans hlen
  · rw [if_neg hle, if_neg (by omega)]

theorem length_within_le {off stop' : ℕ} (h : ¬ (stop e ≤ off ∨ stop' ≤ e.1)) :
    max e.1 off - off + (within off stop' e).length ≤ stop' - off := by
  simp only [within, List.length_drop, List.length_take]
  unfold stop at *
  omega

/-- A window of the list with the stretches in place. -/
theorem overlay_eq {off stop' : ℕ} {window : List α} (h : es.Pairwise Clear)
    (hlen : window.length = stop' - off)
    (hwindow : ∀ i, off + i < stop' → window[i]? = some (xs[off + i]?.getD z))
    (hstop : stop' ≤ max xs.length (ends es)) :
    overlay z off stop' window es = ((lay z xs es).drop off).take (stop' - off) := by
  -- every position of the window, by induction on the stretches
  have hat : ∀ (es : List (ℕ × List α)) (w : List α), es.Pairwise Clear → w.length = stop' - off →
      (overlay z off stop' w es).length = stop' - off ∧ ∀ i, off + i < stop' →
        (overlay z off stop' w es)[i]? = (es.findSome? (read? · (off + i))).or w[i]? := by
    intro es
    induction es with
    | nil => exact fun w _ hw => ⟨hw, fun i _ => rfl⟩
    | cons e es ih =>
      intro w hclear hw
      obtain ⟨hhead, htail⟩ := List.pairwise_cons.mp hclear
      have hnext : overlay z off stop' w (e :: es) = overlay z off stop'
          (if stop e ≤ off ∨ stop' ≤ e.1 then w
            else patch z w (max e.1 off - off) (within off stop' e)) es := rfl
      rw [hnext]
      have hw' : (if stop e ≤ off ∨ stop' ≤ e.1 then w
          else patch z w (max e.1 off - off) (within off stop' e)).length = stop' - off := by
        split
        · exact hw
        next hmeets =>
          have hle := length_within_le hmeets
          rw [length_patch, hw]
          omega
      obtain ⟨hlen', hread⟩ := ih _ htail hw'
      refine ⟨hlen', ?_⟩
      intro i hi
      have hfirst : (if stop e ≤ off ∨ stop' ≤ e.1 then w
          else patch z w (max e.1 off - off) (within off stop' e))[i]? =
          (read? e (off + i)).or w[i]? := by
        split
        next hout =>
          have hnone : read? e (off + i) = none := by
            rw [read?_eq_none]
            omega
          rw [hnone, Option.none_or]
        next hmeets =>
          have hiw : i < w.length := by omega
          rw [getElem?_patch, read?_within hi, if_pos (lt_max_of_lt_left hiw),
            List.getElem?_eq_getElem hiw, Option.getD_some]
      rw [hread i hi, hfirst, List.findSome?_cons]
      cases hb : read? e (off + i) with
      | none => rw [Option.none_or]
      | some b =>
        have hnone : es.findSome? (read? · (off + i)) = none := by
          rw [List.findSome?_eq_none_iff]
          exact fun e' he' => (hhead e' he').read?_none hb
        rw [hnone, Option.none_or]
  obtain ⟨hlen', hread⟩ := hat es window h hlen
  apply List.ext_getElem?
  intro i
  by_cases hi : off + i < stop'
  · rw [hread i hi, hwindow i hi, List.getElem?_take_of_lt (by omega), List.getElem?_drop,
      getElem?_lay h,
      if_pos (hi.trans_le hstop)]
  · rw [List.getElem?_eq_none (by omega), List.getElem?_eq_none]
    rw [List.length_take]
    omega

end Extents
