import Mathlib.Tactic

/-! Statements that are carried out one after the other and may stop between any two, or at
one that fails: what such runs keep, and what a whole run has done. -/
namespace Reruns

variable {ι σ ε : Type*} (exec : ι → σ → Except ε σ)

/-- A whole run. -/
def run : List ι → σ → Except ε σ
  | [], s => .ok s
  | i :: is, s =>
    match exec i s with
    | .ok t => run is t
    | .error e => .error e

/-- The state that the statements leave when a run stops after them, or at one that fails. -/
def cut : List ι → σ → σ
  | [], s => s
  | i :: is, s =>
    match exec i s with
    | .ok t => cut is t
    | .error _ => s

variable {exec} {is js : List ι} {i : ι} {s t : σ} {P : σ → Prop}

theorem run_cons (h : exec i s = .ok t) : run exec (i :: is) s = run exec is t := by
  rw [run, h]

theorem run_append (h : run exec is s = .ok t) : run exec (is ++ js) s = run exec js t := by
  induction is generalizing s with
  | nil =>
    obtain rfl := Except.ok.inj h
    rfl
  | cons i is ih =>
    rw [run] at h
    split at h
    · rename_i u hu
      rw [List.cons_append, run_cons hu]
      exact ih h
    · cases h

theorem run_append_inv {u : σ} (h : run exec (is ++ js) s = .ok u) :
    ∃ t, run exec is s = .ok t ∧ run exec js t = .ok u := by
  induction is generalizing s with
  | nil => exact ⟨s, rfl, h⟩
  | cons i is ih =>
    rw [List.cons_append, run] at h
    split at h
    · rename_i v hv
      obtain ⟨t, ht, hu⟩ := ih h
      exact ⟨t, (run_cons hv).trans ht, hu⟩
    · cases h

/-- A run that goes through leaves what it returns. -/
theorem cut_eq_of_run (h : run exec is s = .ok t) : cut exec is s = t := by
  induction is generalizing s with
  | nil => exact Except.ok.inj h
  | cons i is ih =>
    rw [run] at h
    rw [cut]
    split at h
    · exact ih h
    · cases h

theorem run_keeps (hstep : ∀ i ∈ is, ∀ s t, P s → exec i s = .ok t → P t) (hs : P s)
    (h : run exec is s = .ok t) : P t := by
  induction is generalizing s with
  | nil =>
    obtain rfl := Except.ok.inj h
    exact hs
  | cons i is ih =>
    rw [run] at h
    split at h
    · rename_i u hu
      exact ih (fun j hj => hstep j (List.mem_cons_of_mem _ hj))
        (hstep i (List.mem_cons_self ..) s u hs hu) h
    · cases h

theorem cut_keeps (hstep : ∀ i ∈ is, ∀ s t, P s → exec i s = .ok t → P t) (hs : P s) :
    P (cut exec is s) := by
  induction is generalizing s with
  | nil => exact hs
  | cons i is ih =>
    rw [cut]
    split
    · rename_i u hu
      exact ih (fun j hj => hstep j (List.mem_cons_of_mem _ hj))
        (hstep i (List.mem_cons_self ..) s u hs hu)
    · exact hs

/-- Statements that all go through, from states they keep. -/
theorem run_total (hstep : ∀ i ∈ is, ∀ s, P s → ∃ t, exec i s = .ok t ∧ P t) (hs : P s) :
    ∃ t, run exec is s = .ok t ∧ P t := by
  induction is generalizing s with
  | nil => exact ⟨s, rfl, hs⟩
  | cons i is ih =>
    obtain ⟨u, hu, hPu⟩ := hstep i (List.mem_cons_self ..) s hs
    obtain ⟨t, ht, hPt⟩ := ih (fun j hj => hstep j (List.mem_cons_of_mem _ hj)) hPu
    exact ⟨t, (run_cons hu).trans ht, hPt⟩

/-- Statements that all find their work done. -/
theorem run_idle (hidle : ∀ i ∈ is, exec i s = .ok s) : run exec is s = .ok s := by
  induction is with
  | nil => rfl
  | cons i is ih =>
    rw [run_cons (hidle i (List.mem_cons_self ..))]
    exact ih (fun j hj => hidle j (List.mem_cons_of_mem _ hj))

/-- What each statement does is done at the end, if no later one undoes it. -/
theorem run_done {D : ι → σ → Prop} (hdone : ∀ i ∈ is, ∀ s t, P s → exec i s = .ok t → D i t)
    (hstay : ∀ i ∈ is, ∀ j ∈ is, ∀ s t, P s → D i s → exec j s = .ok t → D i t)
    (hP : ∀ i ∈ is, ∀ s t, P s → exec i s = .ok t → P t) (hs : P s) (h : run exec is s = .ok t) :
    ∀ i ∈ is, D i t := by
  induction is generalizing s with
  | nil => exact nofun
  | cons i is ih =>
    rw [run] at h
    split at h
    · rename_i u hu
      have hPu := hP i (List.mem_cons_self ..) s u hs hu
      have htail : ∀ j ∈ is, ∀ s t, P s ∧ D i s → exec j s = .ok t → P t ∧ D i t :=
        fun j hj s t hP' hjt =>
        ⟨hP j (List.mem_cons_of_mem _ hj) s t hP'.1 hjt,
          hstay i (List.mem_cons_self ..) j (List.mem_cons_of_mem _ hj) s t hP'.1 hP'.2 hjt⟩
      intro j hj
      rcases List.mem_cons.mp hj with rfl | hj
      · exact (run_keeps (P := fun s => P s ∧ D j s) htail
          ⟨hPu, hdone j (List.mem_cons_self ..) s u hs hu⟩ h).2
      · exact ih (fun k hk => hdone k (List.mem_cons_of_mem _ hk))
          (fun k hk l hl => hstay k (List.mem_cons_of_mem _ hk) l (List.mem_cons_of_mem _ hl))
          (fun k hk => hP k (List.mem_cons_of_mem _ hk)) hPu h j hj
    · cases h

end Reruns
