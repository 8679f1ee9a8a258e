import Mathlib.Data.List.Basic

/-! Scanning a list from its head. Where a rule reads something there, what it puts out is taken
and the scan goes on behind it, in the state the rule leaves; elsewhere one item is skipped. -/
namespace Scanning

/-- What stands at the head of a list: the next state, what is put out, and what is left. -/
abbrev Rule (σ α β : Type*) := σ → List α → Option (σ × List β × List α)

variable {σ α β : Type*} (m : Rule σ α β)

/-- A scan of at most so many turns. -/
def scanFor : ℕ → σ → List α → List β
  | 0, _, _ => []
  | turns + 1, s, cs =>
    match m s cs with
    | some (s', out, rest) => out ++ scanFor turns s' rest
    | none => scanFor turns s cs.tail

def scan (s : σ) (cs : List α) : List β := scanFor m cs.length s cs

/-- Whatever is read takes something off the front. -/
def Rule.Eats : Prop :=
  ∀ s cs s' out rest, m s cs = some (s', out, rest) → ∃ c cs', cs = c :: cs' ∧ rest <:+ cs'

variable {m} {s s' : σ} {c : α} {cs rest : List α} {out : List β}

theorem Rule.Eats.nil (hm : Rule.Eats m) : m s [] = none := by
  rcases h : m s [] with _ | ⟨s', out, rest⟩
  · rfl
  · obtain ⟨c, cs', hcs, -⟩ := hm _ _ _ _ _ h
    cases hcs

theorem Rule.Eats.length (hm : Rule.Eats m) (h : m s cs = some (s', out, rest)) :
    rest.length < cs.length := by
  obtain ⟨c, cs', rfl, hrest⟩ := hm _ _ _ _ _ h
  exact Nat.lt_succ_of_le hrest.length_le

theorem scanFor_nil (hm : Rule.Eats m) (turns : ℕ) : scanFor m turns s [] = [] := by
  induction turns with
  | zero => rfl
  | succ turns ih =>
    rw [scanFor, hm.nil]
    exact ih

/-- Turns past the length of the list change nothing. -/
theorem scanFor_enough (hm : Rule.Eats m) {turns turns' : ℕ} (h : cs.length ≤ turns)
    (h' : cs.length ≤ turns') :
    scanFor m turns s cs = scanFor m turns' s cs := by
  induction turns generalizing turns' s cs with
  | zero =>
    obtain rfl := List.length_eq_zero_iff.mp (Nat.le_zero.mp h)
    rw [scanFor_nil hm, scanFor_nil hm]
  | succ turns ih =>
    cases turns' with
    | zero =>
      obtain rfl := List.length_eq_zero_iff.mp (Nat.le_zero.mp h')
      rw [scanFor_nil hm, scanFor_nil hm]
    | succ turns' =>
      rw [scanFor, scanFor]
      rcases hread : m s cs with _ | ⟨s', out, rest⟩
      · have htail : cs.tail.length = cs.length - 1 := List.length_tail
        exact ih (by omega) (by omega)
      · have hless := hm.length hread
        simp only [ih (show rest.length ≤ turns by omega) (show rest.length ≤ turns' by omega)]

theorem scan_skip (h : m s (c :: cs) = none) : scan m s (c :: cs) = scan m s cs := by
  rw [scan, List.length_cons, scanFor, h]
  rfl

theorem scan_read (hm : Rule.Eats m) (h : m s cs = some (s', out, rest)) :
    scan m s cs = out ++ scan m s' rest := by
  have hless := hm.length h
  obtain ⟨turns, hturns⟩ := Nat.exists_eq_succ_of_ne_zero (Nat.ne_zero_of_lt hless)
  rw [scan, hturns, scanFor, h]
  exact congrArg (out ++ ·) (scanFor_enough hm (by omega) (Nat.le_refl _))

/-- Scanning goes by what is read and what is skipped. -/
theorem scan_induction (hm : Rule.Eats m) {P : σ → List α → Prop} (nil : ∀ s, P s [])
    (skip : ∀ s c cs, m s (c :: cs) = none → P s cs → P s (c :: cs))
    (read : ∀ s cs s' out rest, m s cs = some (s', out, rest) → P s' rest → P s cs) (s : σ)
    (cs : List α) : P s cs := by
  induction h : cs.length using Nat.strongRecOn generalizing s cs with
  | _ k ih =>
    subst h
    rcases hread : m s cs with _ | ⟨s', out, rest⟩
    · cases cs with
      | nil => exact nil s
      | cons c cs => exact skip s c cs hread (ih _ (Nat.lt_succ_self _) s cs rfl)
    · exact read s cs s' out rest hread (ih _ (hm.length hread) s' rest rfl)

/-- Whatever a scan puts out was read somewhere in the list. -/
theorem mem_scan (hm : Rule.Eats m) {b : β} (h : b ∈ scan m s cs) :
    ∃ t t' out rest front, front <:+ cs ∧ m t front = some (t', out, rest) ∧ b ∈ out := by
  induction s, cs using scan_induction hm with
  | nil s => exact absurd h List.not_mem_nil
  | skip s c cs hread ih =>
    rw [scan_skip hread] at h
    obtain ⟨t, t', out, rest, front, hfront, hfound, hb⟩ := ih h
    exact ⟨t, t', out, rest, front, hfront.trans (List.suffix_cons c cs), hfound, hb⟩
  | read s cs s' out rest hread ih =>
    rw [scan_read hm hread, List.mem_append] at h
    rcases h with hb | hb
    · exact ⟨s, s', out, rest, cs, List.suffix_refl cs, hread, hb⟩
    · obtain ⟨t, t', out', rest', front, hfront, hfound, hb'⟩ := ih hb
      obtain ⟨c, cs', rfl, hrest⟩ := hm _ _ _ _ _ hread
      exact ⟨t, t', out', rest', front,
        hfront.trans (hrest.trans (List.suffix_cons c cs')), hfound, hb'⟩

/-- A front at which nothing is read is skipped. -/
theorem scan_skip_front {w : List α} (h : ∀ c w', (c :: w') <:+ w → m s (c :: (w' ++ cs)) = none) :
    scan m s (w ++ cs) = scan m s cs := by
  induction w with
  | nil => rfl
  | cons c w ih =>
    rw [List.cons_append, scan_skip (h c w (List.suffix_refl _))]
    exact ih (fun d w' hw => h d w' (hw.trans (List.suffix_cons c w)))

/-- An end at which nothing is read, and that no reading before it depends on, may be left off. -/
theorem scan_append_idle (hm : Rule.Eats m) {w : List α}
    (hframe : ∀ t cs, m t (cs ++ w) = (m t cs).map (fun r => (r.1, r.2.1, r.2.2 ++ w)))
    (hidle : ∀ t c w', (c :: w') <:+ w → m t (c :: w') = none) :
    scan m s (cs ++ w) = scan m s cs := by
  induction s, cs using scan_induction hm with
  | nil s =>
    have hskip : scan m s (w ++ []) = scan m s [] := by
      apply scan_skip_front
      intro c w' hw
      rw [List.append_nil]
      exact hidle s c w' hw
    rwa [List.append_nil] at hskip
  | skip s c cs hread ih =>
    have hsame : m s (c :: (cs ++ w)) = none := by
      rw [← List.cons_append, hframe, hread]
      rfl
    rw [List.cons_append, scan_skip hsame, scan_skip hread, ih]
  | read s cs s' out rest hread ih =>
    have hsame : m s (cs ++ w) = some (s', out, rest ++ w) := by
      rw [hframe, hread]
      rfl
    rw [scan_read hm hsame, scan_read hm hread, ih]

end Scanning
