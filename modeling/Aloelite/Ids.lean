import Aloelite.StoreTables
import Aloelite.Library.Numerals
import Mathlib.Data.Char
import Mathlib.Data.Prod.Lex

/-! Host-side ids: the layout and the monotonic mint of `ids.py`. -/
namespace Aloelite

open Fallible Numerals

/-- `(ts, seq)`, compared as Python compares the pair. -/
abbrev Stamp := ℕ ×ₗ ℤ

/-- `_SEQ_LIMIT` -/
def seqLimit : ℤ := 4096

/-- What `format_uuid7` draws. -/
structure Draw where
  variant : Fin 4
  short : List Char
  long : List Char
  deriving DecidableEq, Repr

/-- `_VARIANT` -/
def Draw.variantDigit (d : Draw) : Char := (['8', '9', 'a', 'b'] : List Char).get d.variant

def hexLower (n : ℕ) : Char := .ofNat (if n < 10 then 48 + n else 87 + n)

/-- `format_uuid7`: `TTTTTTTT-TTTT-7SSS-Vrrr-rrrrrrrrrrrr` -/
def formatUuid7 (tsMs : ℕ) (seq : ℤ) (d : Draw) : Except FsError (List Char) := do
  refuse (¬(0 ≤ seq ∧ seq < seqLimit)) .valueError
  let t := numeral hexLower 16 12 (tsMs % 2 ^ 48)
  return t.take 8 ++ ['-'] ++ t.drop 8 ++ (['-', '7'] ++ (numeral hexLower 16 3 seq.toNat ++
    (['-', d.variantDigit] ++ d.short ++ ['-'] ++ d.long)))

structure MonotonicMint where
  ts : ℕ := 0
  seq : ℤ := -1
  deriving DecidableEq, Repr

namespace MonotonicMint

def state (m : MonotonicMint) : Stamp := toLex (m.ts, m.seq)

def fence (m : MonotonicMint) (wm : Stamp) : MonotonicMint :=
  if m.state < wm then { ts := (ofLex wm).1, seq := (ofLex wm).2 } else m

/-- The state `mint` moves to. -/
def advance (m : MonotonicMint) (now : ℕ) : MonotonicMint :=
  if m.ts < now then { ts := now, seq := 0 }
  else if m.seq + 1 < seqLimit then { m with seq := m.seq + 1 }
  else { ts := m.ts + 1, seq := 0 }

def mint (m : MonotonicMint) (now : ℕ) (d : Draw) : MonotonicMint × Except FsError (List Char) :=
  (m.advance now, formatUuid7 (m.advance now).ts (m.advance now).seq d)

end MonotonicMint

/-! ### The order of one mint -/

theorem stamp_lt_iff {a b : Stamp} :
    a < b ↔ (ofLex a).1 < (ofLex b).1 ∨ ((ofLex a).1 = (ofLex b).1 ∧ (ofLex a).2 < (ofLex b).2) :=
  Prod.Lex.lt_iff

theorem hexLower_lt : ∀ i j, i < j → j < 16 → hexLower i < hexLower j := by
  intro i j hij hj
  have hall : ∀ j < 16, ∀ i < j, hexLower i < hexLower j := by decide
  exact hall j hj i hij

namespace MonotonicMint

variable {m : MonotonicMint} {wm : Stamp} {now : ℕ} {d : Draw}

/-- What the state is after any fence or mint: a sequence a next call can count
on from. -/
def Counting (m : MonotonicMint) : Prop := -1 ≤ m.seq

theorem fence_state : (m.fence wm).state = max m.state wm := by
  unfold fence
  split
  · rename_i h
    exact (max_eq_right h.le).symm
  · rename_i h
    exact (max_eq_left (not_lt.mp h)).symm

theorem Counting.fence (h : m.Counting) {wm : Stamp} (hwm : 0 ≤ (ofLex wm).2) :
    (m.fence wm).Counting := by
  unfold MonotonicMint.fence
  split
  · exact le_trans (by omega) hwm
  · exact h

theorem advance_seq (h : m.Counting) (now : ℕ) :
    0 ≤ (m.advance now).seq ∧ (m.advance now).seq < seqLimit := by
  unfold Counting at h
  unfold advance seqLimit
  split
  · simp
  · split
    · rename_i hlt
      exact ⟨by simp only; omega, hlt⟩
    · simp

theorem Counting.advance (h : m.Counting) : (m.advance now).Counting :=
  le_trans (by omega) (advance_seq h now).1

theorem lt_advance : m.state < (m.advance now).state := by
  rw [stamp_lt_iff]
  unfold MonotonicMint.advance state
  split
  · rename_i h
    exact Or.inl h
  · split
    · exact Or.inr ⟨rfl, by simp⟩
    · exact Or.inl (Nat.lt_succ_self m.ts)

end MonotonicMint

/-- An id is minted of every stamp with a sequence in range, and of two such
stamps below 2^48 ms the later one has the greater text. -/
theorem formatUuid7_lt {a b : MonotonicMint} (ha : 0 ≤ a.seq ∧ a.seq < seqLimit)
    (hb : 0 ≤ b.seq ∧ b.seq < seqLimit) (hlt : a.state < b.state) (d e : Draw) :
    ∃ x y, formatUuid7 a.ts a.seq d = .ok x ∧ formatUuid7 b.ts b.seq e = .ok y ∧
      (b.ts < 2 ^ 48 → x < y) := by
  simp only [formatUuid7, refuse, ha, hb, and_self, not_true_eq_false]
  refine ⟨_, _, rfl, rfl, ?_⟩
  intro hts
  have hlt' : a.ts < b.ts ∨ (a.ts = b.ts ∧ a.seq < b.seq) := stamp_lt_iff.mp hlt
  have hat : a.ts < 2 ^ 48 := by omega
  rw [Nat.mod_eq_of_lt hts, Nat.mod_eq_of_lt hat]
  have hpow : (16 : ℕ) ^ 12 = 2 ^ 48 := by norm_num
  rcases hlt' with h | ⟨heq, hless⟩
  · -- the timestamps differ, and the dash stands at the same place of both
    have hnum : List.Lex (· < ·) (numeral hexLower 16 12 a.ts) (numeral hexLower 16 12 b.ts) :=
      numeral_lex hexLower_lt h (by omega)
    have hdash := lex_insert hnum (by simp) 8 ['-']
    exact lex_append hdash (by simp) _ _
  · have hseq : a.seq.toNat < b.seq.toNat := by omega
    rw [heq]
    have hbound : b.seq.toNat < 16 ^ 3 := by
      have := hb.2
      unfold seqLimit at this
      omega
    have hnum : List.Lex (· < ·) (numeral hexLower 16 3 a.seq.toNat)
        (numeral hexLower 16 3 b.seq.toNat) :=
      numeral_lex hexLower_lt hseq hbound
    apply lex_append_left
    apply lex_append_left
    exact lex_append hnum (by simp) _ _

/-! ### Any sequence of calls -/

inductive MintCall where
  | fence (wmTs wmSeq : ℕ)
  | mint (now : ℕ) (d : Draw)

/-- A call as it went: the mark it fenced at, or the state it moved to with the id
it returned. -/
inductive MintEvent where
  | fenced (wm : Stamp)
  | minted (state : Stamp) (id : Except FsError (List Char))

namespace MintEvent

/-- A later call against an earlier one. An id is above every mark and every id
before it, as a text while its timestamp fits the 48 bits of the layout. -/
def Ordered : MintEvent → MintEvent → Prop
  | _, .fenced _ => True
  | .fenced wm, .minted st _ => wm < st
  | .minted st id, .minted st' id' =>
    st < st' ∧ ∃ x y, id = .ok x ∧ id' = .ok y ∧ ((ofLex st').1 < 2 ^ 48 → x < y)

/-- A minted sequence fits twelve bits. -/
def Fits : MintEvent → Prop
  | .fenced _ => True
  | .minted st _ => 0 ≤ (ofLex st).2 ∧ (ofLex st).2 < seqLimit

end MintEvent

namespace MonotonicMint

def trace (m : MonotonicMint) : List MintCall → List MintEvent
  | [] => []
  | .fence wmTs wmSeq :: cs =>
    .fenced (toLex (wmTs, (wmSeq : ℤ))) :: (m.fence (toLex (wmTs, (wmSeq : ℤ)))).trace cs
  | .mint now d :: cs =>
    .minted (m.mint now d).1.state (m.mint now d).2 :: (m.mint now d).1.trace cs

variable {m : MonotonicMint} {calls : List MintCall}

/-- Every id of a trace is minted of a state above the first, with a sequence in
range. -/
theorem trace_above (h : m.Counting) : ∀ e ∈ m.trace calls, match e with
    | .fenced _ => True
    | .minted st id => m.state < st ∧ ∃ a : MonotonicMint, ∃ d, a.state = st ∧
        (0 ≤ a.seq ∧ a.seq < seqLimit) ∧ id = formatUuid7 a.ts a.seq d := by
  induction calls generalizing m with
  | nil => simp [trace]
  | cons c cs ih =>
    cases c with
    | fence wmTs wmSeq =>
      intro e he
      rcases List.mem_cons.mp he with rfl | he
      · trivial
      · have hc : (m.fence (toLex (wmTs, (wmSeq : ℤ)))).Counting :=
          h.fence (Int.natCast_nonneg wmSeq)
        have htail := ih hc e he
        cases e with
        | fenced _ => trivial
        | minted st id =>
          refine ⟨lt_of_le_of_lt ?_ htail.1, htail.2⟩
          rw [fence_state]
          exact le_max_left _ _
    | mint now d =>
      intro e he
      rcases List.mem_cons.mp he with rfl | he
      · exact ⟨lt_advance, m.advance now, d, rfl, advance_seq h now, rfl⟩
      · have htail := ih (m := m.advance now) h.advance e he
        cases e with
        | fenced _ => trivial
        | minted st id => exact ⟨lt_trans lt_advance htail.1, htail.2⟩

/-- One mint: each id is above every earlier id and every earlier fence. -/
theorem trace_ordered (h : m.Counting) : (m.trace calls).Pairwise MintEvent.Ordered := by
  induction calls generalizing m with
  | nil => exact List.Pairwise.nil
  | cons c cs ih =>
    cases c with
    | fence wmTs wmSeq =>
      have hc : (m.fence (toLex (wmTs, (wmSeq : ℤ)))).Counting := h.fence (Int.natCast_nonneg wmSeq)
      refine List.Pairwise.cons ?_ (ih hc)
      intro e he
      have habove := trace_above hc e he
      cases e with
      | fenced _ => trivial
      | minted st id =>
        rw [fence_state] at habove
        exact lt_of_le_of_lt (le_max_right _ _) habove.1
    | mint now d =>
      refine List.Pairwise.cons ?_ (ih (m := m.advance now) h.advance)
      intro e he
      have habove := trace_above (m := m.advance now) h.advance e he
      cases e with
      | fenced _ => trivial
      | minted st id =>
        obtain ⟨hlt, a, d', rfl, hfits, rfl⟩ := habove
        exact ⟨hlt, formatUuid7_lt (advance_seq h now) hfits hlt d d'⟩

theorem trace_fits (h : m.Counting) : ∀ e ∈ m.trace calls, e.Fits := by
  intro e he
  have habove := trace_above h e he
  cases e with
  | fenced _ => trivial
  | minted st id =>
    obtain ⟨_, a, _, rfl, hfits, _⟩ := habove
    exact hfits

end MonotonicMint

end Aloelite
