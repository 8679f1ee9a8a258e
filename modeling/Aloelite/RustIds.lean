import Aloelite.Ids
import Aloelite.RustLeaves

/-! The monotonic mint of `ids.rs`, over its own integers, beside the one of `ids.py`. -/
namespace Aloelite

open Machine Outcome Fallible

def Rust.u16 : IntType := ⟨16, false, by decide⟩

/-- `MonotonicMint` of `ids.rs`: no state before the first call. -/
structure RustMint where
  state : Option (UInt64 × UInt16) := none
  deriving DecidableEq

namespace RustMint

variable (B : Build)

/-- The pair Python holds in the same state. -/
def asPython (m : RustMint) : MonotonicMint :=
  match m.state with
  | none => {}
  | some (ts, seq) => { ts := ts.toNat, seq := seq.toNat }

/-- `Some((wm_ts, wm_seq)) > self.state` -/
def fence (m : RustMint) (wmTs : UInt64) (wmSeq : UInt16) : RustMint :=
  match m.state with
  | none => { state := some (wmTs, wmSeq) }
  | some (ts, seq) =>
    if ts < wmTs ∨ (ts = wmTs ∧ seq < wmSeq) then { state := some (wmTs, wmSeq) } else m

/-- The state `mint` moves to. -/
def advance (m : RustMint) (now : UInt64) : Outcome FsError RustMint :=
  match m.state with
  | none => done { state := some (now, 0) }
  | some (ts, seq) =>
    if ts < now then done { state := some (now, 0) }
    else
      -- `seq + 1 < SEQ_LIMIT`, then `seq + 1` or `ts + 1` as it is stored
      B.arith Rust.u16 (seq.toNat + 1) >>= fun next =>
        if next < seqLimit then done { state := some (ts, .ofNat next.toNat) }
        else
          B.arith Rust.u64 (ts.toNat + 1) >>= fun later =>
            done { state := some (.ofNat later.toNat, 0) }

/-- `mint`: `format_uuid7` asserts that the sequence is in range. -/
def mint (m : RustMint) (now : UInt64) (d : Draw) : Outcome FsError (RustMint × List Char) :=
  m.advance B now >>= fun m' =>
    match formatUuid7 m'.asPython.ts m'.asPython.seq d with
    | .ok id => done (m', id)
    | .error _ => panicked

end RustMint

/-- A call with the arguments `ids.rs` takes. -/
inductive RustMintCall where
  | fence (wmTs : UInt64) (wmSeq : UInt16)
  | mint (now : UInt64) (d : Draw)

namespace RustMintCall

def asPython : RustMintCall → MintCall
  | .fence wmTs wmSeq => .fence wmTs.toNat wmSeq.toNat
  | .mint now d => .mint now.toNat d

/-- The fenced sequence is not the last `u16`, which has no next one. -/
def Counts : RustMintCall → Prop
  | .fence _ wmSeq => wmSeq < 65535
  | .mint _ _ => True

end RustMintCall

/-- A minted timestamp is a `u64`. -/
def MintEvent.FitsU64 : MintEvent → Prop
  | .fenced _ => True
  | .minted st _ => (ofLex st).1 < 2 ^ 64

namespace RustMint

/-- The calls one after the other, up to a panic. -/
def trace (B : Build) (m : RustMint) : List RustMintCall → Outcome FsError (List MintEvent)
  | [] => done []
  | .fence wmTs wmSeq :: cs =>
    (m.fence wmTs wmSeq).trace B cs >>= fun es =>
      done (.fenced (toLex (wmTs.toNat, (wmSeq.toNat : ℤ))) :: es)
  | .mint now d :: cs =>
    m.mint B now d >>= fun r =>
      r.1.trace B cs >>= fun es =>
        done (.minted r.1.asPython.state (.ok r.2) :: es)

variable {B : Build} {m : RustMint} {calls : List RustMintCall}

theorem asPython_counting : m.asPython.Counting := by
  unfold MonotonicMint.Counting asPython
  split
  · exact le_rfl
  · exact le_trans (by omega) (Int.natCast_nonneg _)

theorem asPython_fence (wmTs : UInt64) (wmSeq : UInt16) :
    (m.fence wmTs wmSeq).asPython =
      m.asPython.fence (toLex (wmTs.toNat, (wmSeq.toNat : ℤ))) := by
  cases hm : m.state with
  | none =>
    have hlt : ({} : MonotonicMint).state < toLex (wmTs.toNat, (wmSeq.toNat : ℤ)) := by
      rw [stamp_lt_iff]
      rcases Nat.eq_zero_or_pos wmTs.toNat with h | h
      · exact Or.inr ⟨h.symm, show (-1 : ℤ) < wmSeq.toNat by omega⟩
      · exact Or.inl h
    simp [fence, asPython, hm, MonotonicMint.fence, hlt]
  | some st =>
    obtain ⟨ts, seq⟩ := st
    have hiff : ((⟨ts.toNat, seq.toNat⟩ : MonotonicMint).state <
        toLex (wmTs.toNat, (wmSeq.toNat : ℤ))) ↔ (ts < wmTs ∨ (ts = wmTs ∧ seq < wmSeq)) := by
      rw [stamp_lt_iff, UInt64.lt_iff_toNat_lt, UInt16.lt_iff_toNat_lt, ← UInt64.toNat_inj]
      simp [MonotonicMint.state]
    by_cases hlt : ts < wmTs ∨ (ts = wmTs ∧ seq < wmSeq)
    · simp [fence, asPython, hm, MonotonicMint.fence, hiff, hlt]
    · simp [fence, asPython, hm, MonotonicMint.fence, hiff, hlt]

theorem u16_holds {n : ℕ} (h : n < 65536) : Rust.u16.Holds n := by
  rw [IntType.Holds, IntType.high, IntType.low, Rust.u16]
  norm_num
  omega

theorem asPython_some {ts : UInt64} {seq : UInt16} :
    ({ state := some (ts, seq) } : RustMint).asPython = { ts := ts.toNat, seq := seq.toNat } := rfl

theorem toNat_next16 {n : ℕ} (h : n + 1 < 2 ^ 16) :
    (UInt16.ofNat ((n : ℤ) + 1).toNat).toNat = n + 1 :=
  UInt16.toNat_ofNat_of_lt' h

theorem toNat_next64 {n : ℕ} (h : n + 1 < 2 ^ 64) :
    (UInt64.ofNat ((n : ℤ) + 1).toNat).toNat = n + 1 :=
  UInt64.toNat_ofNat_of_lt' h

/-- Neither addition of a mint overflows while the sequence has a next one and the
timestamp it moves to is a `u64`. -/
theorem advance_done {now : UInt64} (hseq : m.asPython.seq < 65535)
    (hts : (m.asPython.advance now.toNat).ts < 2 ^ 64) :
    ∃ m', m.advance B now = done m' ∧ m'.asPython = m.asPython.advance now.toNat := by
  cases hm : m.state with
  | none =>
    refine ⟨{ state := some (now, 0) }, by simp only [advance, hm], ?_⟩
    rw [asPython_some, MonotonicMint.advance, asPython, hm]
    rcases Nat.eq_zero_or_pos now.toNat with h | h
    · rw [h]
      rfl
    · rw [if_pos h]
      rfl
  | some st =>
    obtain ⟨ts, seq⟩ := st
    have hself : m.asPython = { ts := ts.toNat, seq := seq.toNat } := by
      rw [asPython, hm]
    rw [hself] at hseq hts ⊢
    have hseq' : (seq.toNat : ℤ) < 65535 := hseq
    simp only [advance, hm, MonotonicMint.advance, UInt64.lt_iff_toNat_lt] at hts ⊢
    by_cases hnow : ts.toNat < now.toNat
    · refine ⟨_, if_pos hnow, ?_⟩
      rw [if_pos hnow, asPython_some]
      rfl
    · rw [if_neg hnow] at hts
      rw [if_neg hnow, if_neg hnow]
      have hnext : Rust.u16.Holds (seq.toNat + 1) := u16_holds (n := seq.toNat + 1) (by omega)
      rw [Build.arith_of_holds hnext, done_bind]
      by_cases hlim : (seq.toNat : ℤ) + 1 < seqLimit
      · refine ⟨_, if_pos hlim, ?_⟩
        rw [if_pos hlim, asPython_some, toNat_next16 (by omega)]
        rfl
      · rw [if_neg hlim] at hts
        have hroom : ts.toNat + 1 < 2 ^ 64 := hts
        have hlater : Rust.u64.Holds (ts.toNat + 1) := Rust.u64_holds.mpr (by omega)
        rw [if_neg hlim, if_neg hlim, Build.arith_of_holds hlater, done_bind]
        refine ⟨_, rfl, ?_⟩
        rw [asPython_some, toNat_next64 hroom]
        rfl

/-- A mint that does not overflow returns the id Python returns. -/
theorem mint_done {now : UInt64} (hseq : m.asPython.seq < 65535)
    (hts : (m.asPython.advance now.toNat).ts < 2 ^ 64) (d : Draw) :
    ∃ m' id, m.mint B now d = done (m', id) ∧ m'.asPython = m.asPython.advance now.toNat ∧
      (m.asPython.mint now.toNat d).2 = .ok id := by
  obtain ⟨m', hm', heq⟩ := advance_done (B := B) hseq hts
  have hfits := MonotonicMint.advance_seq (asPython_counting (m := m)) now.toNat
  have hok : ∃ id, formatUuid7 m'.asPython.ts m'.asPython.seq d = .ok id := by
    rw [heq]
    simp only [formatUuid7, refuse, hfits, and_self, not_true_eq_false]
    exact ⟨_, rfl⟩
  obtain ⟨id, hid⟩ := hok
  refine ⟨m', id, ?_, heq, ?_⟩
  · simp only [mint, hm', done_bind, hid]
  · rw [MonotonicMint.mint, ← heq]
    exact hid

/-- Both hosts mint the same ids of the same calls, in every build, as long as no
sequence fenced at is the last of its type and no timestamp outgrows its own. -/
theorem trace_eq (hseq : m.asPython.seq < 65535) (hcalls : ∀ c ∈ calls, c.Counts)
    (hfits : ∀ e ∈ m.asPython.trace (calls.map RustMintCall.asPython), e.FitsU64) :
    m.trace B calls = done (m.asPython.trace (calls.map RustMintCall.asPython)) := by
  induction calls generalizing m with
  | nil => rfl
  | cons c cs ih =>
    have hrest : ∀ c ∈ cs, c.Counts := fun c hc => hcalls c (List.mem_cons_of_mem _ hc)
    cases c with
    | fence wmTs wmSeq =>
      have hwm : wmSeq.toNat < 65535 := by
        have hcount : wmSeq < 65535 := hcalls _ List.mem_cons_self
        exact UInt16.lt_iff_toNat_lt.mp hcount
      have hnext : (m.fence wmTs wmSeq).asPython.seq < 65535 := by
        rw [asPython_fence, MonotonicMint.fence]
        split
        · have hcast : (wmSeq.toNat : ℤ) < 65535 := by exact_mod_cast hwm
          exact hcast
        · exact hseq
      simp only [List.map_cons, RustMintCall.asPython, MonotonicMint.trace] at hfits ⊢
      rw [← asPython_fence] at hfits ⊢
      rw [trace, ih hnext hrest fun e he => hfits e (List.mem_cons_of_mem _ he)]
      rfl
    | mint now d =>
      simp only [List.map_cons, RustMintCall.asPython, MonotonicMint.trace] at hfits ⊢
      have hts : (m.asPython.advance now.toNat).ts < 2 ^ 64 := hfits _ List.mem_cons_self
      obtain ⟨m', id, hmint, heq, hid⟩ := mint_done (B := B) hseq hts d
      have hnext : m'.asPython.seq < 65535 := by
        rw [heq]
        have hlt := (MonotonicMint.advance_seq (asPython_counting (m := m)) now.toNat).2
        unfold seqLimit at hlt
        omega
      have htail : ∀ e ∈ m'.asPython.trace (cs.map RustMintCall.asPython), e.FitsU64 := by
        rw [heq]
        exact fun e he => hfits e (List.mem_cons_of_mem _ he)
      rw [trace, hmint, done_bind, ih hnext hrest htail, hid, heq]
      rfl

end RustMint

end Aloelite
