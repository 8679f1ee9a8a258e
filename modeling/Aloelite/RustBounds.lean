import Aloelite.RustWrites

/-! Every call of the Rust engine on a leaf and its descriptors, at the values a caller can
pass: it answers as in unbounded arithmetic, or refuses and leaves the state, exactly when
it stays within the bounds of its integer types. -/
namespace Aloelite.Rust

open Machine Outcome Pieces Leaf Relation

variable {B : Build} {t : Target} {L L' M : Leaf} {v w i j offset : ℤ} {s u : Sys} {d : Descriptor}
  {k : ℕ} {a : Access} {data : Bytes} {valid : Bool} {msg : String} {whence : Whence}
  {mode : WriteMode} {op : Op}

/-! ### Closing a writer -/

theorem Sys.total_writer (h : d.Writing t L) : Sys.total B d = done d.extent := by
  have hextent := h.extent
  have hroom := h.room
  have hindex := Int.mul_nonneg h.index.1 h.pos_cs.le
  have hflushed := h.flushed
  have hle := isizeMax_le (t := t)
  rw [Descriptor.extent] at hextent ⊢
  simp only [Sys.total, h.writable, if_true,
    Build.cast_of_holds (u64_holds.mpr (show 0 ≤ (d.pending.length : ℤ) ∧ _ by omega)), done_bind,
    Build.arith_of_holds (u64_holds.mpr (show 0 ≤ d.flushed + d.pending.length ∧ _ by omega))]

/-- The last chunk is staged under the claimed version, whose manifest is then what the
writer has taken. -/
theorem Sys.stageLast_done (h : s.Busy t k) (hi : (s.fds k).chunkIndex ≤ 9223372036854775807)
    (hshort : (s.fds k).pending.length < (s.fds k).chunkSize) :
    ∃ M v, s.stageLast B k =
        done ({ s with leaf := M }.setFd k { s.fds k with newVersion := some v, carryDone := true },
          v) ∧
      (∃ f, Adds s.leaf M v f) ∧ M.Manifest v (s.fds k).extent ∧
      ∀ l, l ≠ k → (s.fds l).Opened → (s.fds l).newVersion ≠ some v := by
  have hcs := h.mine.pos_cs
  have hflushed := h.mine.flushed
  have hmanifest : ∀ {M : Leaf} {v : ℤ} {f : ℤ → Option Bytes}, Adds s.leaf M v f →
      (∀ i, 0 ≤ i → i < (s.fds k).chunkIndex → ∃ b, M.chunk v i = some b ∧ (b.length : ℤ) =
      (s.fds k).chunkSize) →
      ((s.fds k).pending ≠ [] → M.chunk v (s.fds k).chunkIndex = some (s.fds k).pending) →
      M.Manifest v (s.fds k).extent := by
    intro M v f hM hfull hlast i h0 hi
    have hsame : M.chunkSize = (s.fds k).chunkSize := by
      rw [h.mine.cs, hM.same]
    rw [hsame] at hi ⊢
    rw [Descriptor.extent] at hi ⊢
    by_cases hlt : i < (s.fds k).chunkIndex
    · obtain ⟨b, hb, hlen⟩ := hfull i h0 hlt
      have hmul := succ_mul_le hcs hlt
      exact ⟨b, hb, by omega⟩
    · obtain rfl : i = (s.fds k).chunkIndex := by
        have hle : i ≤ (s.fds k).chunkIndex := le_of_mul_lt hcs (by omega)
        omega
      refine ⟨_, hlast ?_, by omega⟩
      intro hnil
      rw [hnil, List.length_nil] at hi
      omega
  rw [stageLast]
  by_cases hnil : (s.fds k).pending = []
  · obtain ⟨M, v, hclaim, hclaimed⟩ : ∃ M v, s.claimVersion B k = _ ∧ s.Claimed k M v :=
      Sys.claimVersion_done h
    obtain ⟨f, hM⟩ := hclaimed.adds
    exact ⟨M, v, by rw [if_pos hnil, hclaim], ⟨f, hM⟩,
      hmanifest hM hclaimed.full (absurd hnil), hclaimed.alone⟩
  · obtain ⟨M, v, hstage, ⟨f, hM⟩, hfull, hlast, -, halone⟩ : ∃ M v,
      s.stage B k (s.fds k).pending = _ ∧ _ := Sys.stage_done h hi
    exact ⟨M, v, by rw [if_neg hnil, hstage], ⟨f, hM⟩, hmanifest hM hfull (fun _ => hlast), halone⟩

/-- A descriptor that is closed takes the place of another. -/
theorem Sys.Sound.setFd_closed (h : s.Sound t) (hd : d.closed = true) : (s.setFd k d).Sound t :=
  h.setFd (Descriptor.sound_of_closed hd) (fun _ ho => absurd (hd.symm.trans ho.1) (by decide))

/-- What closing leaves of a descriptor. -/
def Descriptor.shut (d : Descriptor) : Descriptor := { d with closed := true }

/-- A writer closed on a valid or an invalid lock. -/
theorem Sys.close_of_commit (ho : (s.fds k).Opened) : s.close B k valid msg =
    match s.commit B k valid msg with
    | done u => done (u.setFd k (u.fds k).shut, 0)
    | refused (e, u) => refused (e, u.setFd k (u.fds k).shut)
    | panicked => panicked := by
  have hopen : ¬(s.fds k).closed = true := by
    rw [ho.1]
    decide
  rw [close, if_neg hopen]
  exact if_pos ho.2

section

variable (h : s.Sound t) (ho : (s.fds k).Opened)

include h ho

theorem Sys.close_done (hfits : (s.fds k).extent ≤ 9223372036854775807) :
    ∃ u, s.close B k true msg = done (u, 0) ∧ u.Sound t ∧ u.leaf.size = (s.fds k).extent := by
  have hbusy := h.busy ho
  obtain ⟨hmine, hshort⟩ := (h.fds k).writing ho.1 ho.2
  have hcs := hmine.pos_cs
  have hindex := hmine.index.1
  have hself := le_mul_self hcs hindex
  have hfilled := hmine.filled.1
  obtain ⟨M, v, hstage, ⟨f, hM⟩, hmanifest, halone⟩ : ∃ M v, s.stageLast B k = _ ∧ _ :=
    Sys.stageLast_done hbusy (by omega) hshort
  have hsame : M.chunkSize = s.leaf.chunkSize := by rw [hM.same]
  have hcommitted : (M.swapPointer v (s.fds k).extent).Sound :=
    ⟨by change 0 ≤ (s.fds k).extent; omega, hfits, hsame ▸ h.leaf.column, fun _ => hmanifest⟩
  have hmoved := hbusy.moved hcommitted hM.moves_swapped halone
  have hcast : i64.Holds (s.fds k).extent := i64_holds.mpr (by omega)
  generalize hclaimed : ({ s.fds k with newVersion := some v, carryDone := true } : Descriptor) =
    c at hstage
  have hcommit : s.commit B k true msg =
      done ({ s with leaf := M.swapPointer v (s.fds k).extent }.setFd k c) := by
    simp only [commit, if_true, Sys.total_writer hmine, done_bind, hstage,
      Build.cast_of_holds hcast, pure_eq_done]
    rfl
  refine ⟨{ s with leaf := M.swapPointer v (s.fds k).extent }.setFd k c.shut, ?_, ?_, rfl⟩
  · rw [Sys.close_of_commit ho, hcommit]
    dsimp only
    rw [Sys.setFd_self, Sys.setFd_setFd]
  · have hclosed := hmoved.setFd_closed (k := k) (show c.shut.closed = true from rfl)
    rw [Sys.setFd_setFd] at hclosed
    exact hclosed

theorem Sys.close_refused : ∃ e u, s.close B k false msg = refused (e, u) ∧
    u = s.setFd k (s.fds k).shut ∧ u.Sound t := by
  obtain ⟨hmine, -⟩ := (h.fds k).writing ho.1 ho.2
  have hcommit : s.commit B k false msg = refused (.lockInvalid msg, s) := by
    simp only [commit, Sys.total_writer hmine, done_bind, Bool.false_eq_true, if_false]
  exact ⟨_, _, by rw [Sys.close_of_commit ho, hcommit], rfl, h.setFd_closed rfl⟩

/-- A size past the end of `i64` is lost at the cast, if the last chunk finds a place. -/
theorem Sys.close_panics (hbad : 9223372036854775807 < (s.fds k).extent) :
    s.close .exact k true msg = panicked := by
  have hbusy := h.busy ho
  obtain ⟨hmine, hshort⟩ := (h.fds k).writing ho.1 ho.2
  have hcast : ¬i64.Holds (s.fds k).extent := by
    rw [i64_holds]
    omega
  have hcommit : s.commit .exact k true msg = panicked := by
    simp only [commit, if_true, Sys.total_writer hmine, done_bind]
    by_cases hi : (s.fds k).chunkIndex ≤ 9223372036854775807
    · obtain ⟨M, v, hstage, -⟩ : ∃ M v, s.stageLast .exact k = _ ∧ _ :=
        Sys.stageLast_done hbusy hi hshort
      simp only [hstage, done_bind, Build.cast_exact hcast, panicked_bind]
    · rw [stageLast]
      by_cases hnil : (s.fds k).pending = []
      · obtain ⟨M, v, hclaim, -⟩ : ∃ M v, s.claimVersion .exact k = _ ∧ s.Claimed k M v :=
          Sys.claimVersion_done hbusy
        simp only [if_pos hnil, hclaim, done_bind, Build.cast_exact hcast, panicked_bind]
      · rw [if_neg hnil, Sys.stage_panics hbusy (not_le.mp hi), panicked_bind]
  rw [Sys.close_of_commit ho, hcommit]

end

/-- A reader, or a descriptor that is closed already. -/
theorem Sys.close_idle (h : s.Sound t) (ho : ¬(s.fds k).Opened) :
    ∃ u, s.close B k valid msg = done (u, 0) ∧ u.Sound t ∧ u.leaf = s.leaf := by
  rw [close]
  by_cases hclosed : (s.fds k).closed = true
  · exact ⟨s, if_pos hclosed, h, rfl⟩
  · have hreader : ¬(s.fds k).writable = true := fun hw => ho ⟨Bool.eq_false_iff.mpr hclosed, hw⟩
    rw [if_neg hclosed]
    exact ⟨s.setFd k (s.fds k).shut, if_neg hreader, h.setFd_closed rfl, rfl⟩

/-! ### What a call may do -/

/-- All of a descriptor but what a reader saw last and whether it is closed. -/
def Descriptor.core (d : Descriptor) : Descriptor :=
  { d with version := 0, size := 0, closed := false }

/-- Nothing is committed, and every descriptor is as it was. -/
structure Sys.Kept (s u : Sys) : Prop where
  leaf : u.leaf = s.leaf
  fds : ∀ l, (u.fds l).core = (s.fds l).core

theorem Sys.Kept.refl : s.Kept s := ⟨rfl, fun _ => rfl⟩

theorem Sys.Kept.setFd (h : d.core = (s.fds k).core) : s.Kept (s.setFd k d) := by
  refine ⟨rfl, fun l => ?_⟩
  by_cases hl : l = k
  · rw [hl, Sys.setFd_self, h]
  · rw [Sys.setFd_other hl]

/-- Where a seek counts from. -/
def Sys.origin (s : Sys) (k : ℕ) : Whence → ℤ
  | .start => 0
  | .current => (s.fds k).pos
  | .stop => if (s.fds k).writable then (s.fds k).extent else s.leaf.size

/-- The answer and the state are those of unbounded arithmetic. -/
def Op.Right (s u : Sys) (answer : ℤ) : Op → Prop
  | .truncate _ size => u.leaf.size = size
  | .writeRange _ offset data =>
    u.leaf.size = (if data = [] then s.leaf.size else max s.leaf.size (offset + data.length)) ∧
      answer = u.leaf.size
  | .append _ data => u.leaf.size = s.leaf.size + data.length ∧ answer = u.leaf.size
  | .openRead .. | .openWrite .. => u.leaf = s.leaf
  | .seek k offset whence =>
    u.leaf = s.leaf ∧ answer = s.origin k whence + offset ∧ (u.fds k).pos = answer
  | .write k data =>
    u.leaf.size = s.leaf.size ∧ u.leaf.version = s.leaf.version ∧ answer = data.length ∧
      (data ≠ [] → (u.fds k).pos = (s.fds k).pos + data.length ∧
        (u.fds k).extent = max (s.fds k).extent ((s.fds k).pos + data.length))
  | .close k .. =>
    u.leaf.size = if (s.fds k).closed = false ∧ (s.fds k).writable = true then (s.fds k).extent
      else s.leaf.size

/-- The values a caller can pass: a `u64`, an `i64` and a slice. -/
def Op.Passable (t : Target) : Op → Prop
  | .truncate _ size => u64.Holds size
  | .writeRange _ offset data => u64.Holds offset ∧ data.length ≤ t.isizeMax
  | .append _ data | .write _ data => data.length ≤ t.isizeMax
  | .seek _ offset _ => i64.Holds offset
  | _ => True

/-- The bounds of a call, where nothing else has it refused. -/
def Op.Within (t : Target) (s : Sys) : Op → Prop
  | .truncate a size =>
    a.Grants → 0 < s.leaf.chunkSize → t.usize.Holds s.leaf.chunkSize ∧ TruncateFits t s.leaf size
  | .writeRange a offset data => data ≠ [] → a.Grants → 0 < s.leaf.chunkSize →
      t.usize.Holds s.leaf.chunkSize ∧ WriteFits t s.leaf offset data.length
  | .append a data => data ≠ [] → a.Grants → 0 < s.leaf.chunkSize → t.usize.Holds s.leaf.chunkSize ∧
      s.leaf.size + data.length ≤ 9223372036854775807 ∧ s.leaf.size % s.leaf.chunkSize +
      data.length ≤ t.isizeMax
  | .openRead a _ => a.Finds → 0 < s.leaf.chunkSize → t.usize.Holds s.leaf.chunkSize
  | .openWrite a _ mode => a.Grants → 0 < s.leaf.chunkSize →
      t.usize.Holds s.leaf.chunkSize ∧
      (mode = .appending → s.leaf.size % s.leaf.chunkSize ≤ t.isizeMax)
  | .seek k offset whence =>
    (s.fds k).closed = false → s.origin k whence + offset ≤ 18446744073709551615
  | .write k data => (s.fds k).Opened → data ≠ [] → (s.fds k).Takes t data.length
  | .close k valid _ => (s.fds k).Opened → valid = true → (s.fds k).extent ≤ 9223372036854775807

/-- A call is settled: with the right answer, or refused and nothing changed; the state it
leaves is sound. -/
inductive Settled (t : Target) (s : Sys) (op : Op) : Call (Sys × ℤ) → Prop
  | done (u : Sys) (answer : ℤ) (hright : op.Right s u answer) (hu : u.Sound t) :
    Settled t s op (.done (u, answer))
  | refused (e : FsError) (u : Sys) (hkept : s.Kept u) (hu : u.Sound t) : Settled t s op
    (.refused (e, u))

theorem Settled.unchanged (h : s.Sound t) {x : Call (Sys × ℤ)} (hx : ∃ e, x = .refused (e, s)) :
    Settled t s op x := by
  obtain ⟨e, rfl⟩ := hx
  exact .refused e s .refl h

/-! ### Seeking -/

/-- A descriptor whose position, or what it saw of the leaf, is another. -/
theorem Sys.Sound.edit (h : s.Sound t) (hd : d.Sound t s.leaf) (hopen : d.Opened → (s.fds k).Opened)
    (hnew : d.newVersion = (s.fds k).newVersion) : (s.setFd k d).Sound t :=
  h.setFd hd fun v ho hv l hl hol => h.apart k l v hl.symm (hopen ho) hol (hnew ▸ hv)

theorem Descriptor.Sound.moved (h : d.Sound t L) {pos : ℤ}
    (hpos : 0 ≤ pos ∧ pos ≤ 18446744073709551615) :
    ({ d with pos := pos } : Descriptor).Sound t L := by
  refine ⟨fun _ => hpos, h.reading, fun ho hw => ?_⟩
  obtain ⟨hmine, hshort⟩ := h.writing ho hw
  exact ⟨{ hmine with pos := hpos }, hshort⟩

/-- A seek from a descriptor that is open: a reader may first look where the content ends. -/
theorem Sys.seek_open (h : s.Sound t) (ho : (s.fds k).closed = false) :
    ∃ d, d.core = (s.fds k).core ∧ d.closed = false ∧ d.Sound t s.leaf ∧ s.seek B k offset whence =
      if s.origin k whence + offset < 0 then refused (.usage "negative seek position", s.setFd k d)
      else B.cast u64 (s.origin k whence + offset) >>= fun pos =>
        done (s.setFd k { d with pos := pos }, pos) := by
  have hcheck : s.check k false = done () := Sys.check_done ho (fun hw => absurd hw (by decide))
  have hnonneg := h.leaf.nonneg
  have hfits := h.leaf.fits
  by_cases hw : (s.fds k).writable = true
  · refine ⟨s.fds k, rfl, ho, h.fds k, ?_⟩
    have hstay : s.refreshForEnd B k whence = done s := if_neg (fun hr => hr.1 hw)
    obtain ⟨hmine, -⟩ := (h.fds k).writing ho hw
    rw [Sys.setFd_eq_self]
    simp only [seek, hcheck, hstay, Sys.total_writer hmine, done_bind, pure_eq_done]
    cases whence with
    | stop => simp only [origin, hw, if_true]
    | _ => rfl
  · have hreader := (h.fds k).reading ho (Bool.eq_false_iff.mpr hw)
    by_cases hstop : whence = .stop
    · refine ⟨{ s.fds k with version := s.leaf.version, size := s.leaf.size }, rfl, ho, ?_, ?_⟩
      · exact ⟨(h.fds k).pos, fun _ _ => ⟨hnonneg, by dsimp only; omega⟩,
          fun _ hw' => absurd hw' hw⟩
      · have hlook : s.refreshForEnd B k whence =
            done (s.setFd k { s.fds k with version := s.leaf.version, size := s.leaf.size }) := by
          have hcast : u64.Holds (max s.leaf.size 0) := u64_holds.mpr (by omega)
          have hmax : max s.leaf.size 0 = s.leaf.size := max_eq_left hnonneg
          rw [refreshForEnd, if_pos ⟨hw, hstop⟩, refresh, Build.cast_of_holds hcast, hmax]
          rfl
        subst hstop
        simp only [seek, hcheck, hlook, total, Sys.setFd_self, done_bind, Sys.setFd_setFd, origin,
          hw, pure_eq_done,
          Bool.false_eq_true, if_false]
    · refine ⟨s.fds k, rfl, ho, h.fds k, ?_⟩
      have hstay : s.refreshForEnd B k whence = done s := if_neg (fun hr => hstop hr.2)
      have htotal : total B (s.fds k) = done (s.fds k).size := if_neg hw
      rw [Sys.setFd_eq_self]
      simp only [seek, hcheck, hstay, htotal, done_bind, pure_eq_done]
      cases whence with
      | stop => exact absurd rfl hstop
      | _ => rfl

theorem seek_settled (h : s.Sound t) (hw : (Op.seek k offset whence).Within t s) :
    Settled t s (.seek k offset whence) (s.call B t (.seek k offset whence)) := by
  change Settled t s _ (s.seek B k offset whence)
  by_cases ho : (s.fds k).closed = false
  · obtain ⟨d, hcore, hopen, hd, hseek⟩ : ∃ d, _ ∧ _ ∧ _ ∧ s.seek B k offset whence = _ :=
      Sys.seek_open h ho
    have hopened : d.Opened → (s.fds k).Opened :=
      fun hd => ⟨ho, (congrArg Descriptor.writable hcore).symm.trans hd.2⟩
    have hnew : d.core.newVersion = (s.fds k).core.newVersion := by rw [hcore]
    rw [hseek]
    by_cases hneg : s.origin k whence + offset < 0
    · rw [if_pos hneg]
      exact .refused _ _ (.setFd hcore) (h.edit hd hopened hnew)
    · have hpos : 0 ≤ s.origin k whence + offset ∧ s.origin k whence + offset ≤
          18446744073709551615 := ⟨not_lt.mp hneg, hw ho⟩
      rw [if_neg hneg, Build.cast_of_holds (u64_holds.mpr hpos), done_bind]
      exact .done _ _ ⟨rfl, rfl, congrArg Descriptor.pos Sys.setFd_self⟩
        (h.edit (hd.moved hpos) hopened hnew)
  · apply Settled.unchanged h
    obtain ⟨e, hcheck⟩ : ∃ e, s.check k false = refused (e, s) :=
      Sys.check_refused fun hc => ho hc.1
    exact ⟨e, by rw [Sys.seek, hcheck, refused_bind]⟩

theorem seek_panics (h : s.Sound t) (hw : ¬(Op.seek k offset whence).Within t s) :
    s.call .exact t (.seek k offset whence) = panicked := by
  change s.seek .exact k offset whence = panicked
  rw [Op.Within, Classical.not_imp, not_le] at hw
  obtain ⟨d, -, -, -, hseek⟩ : ∃ d, _ ∧ _ ∧ _ ∧ s.seek .exact k offset whence = _ :=
    Sys.seek_open h hw.1
  have hout : ¬u64.Holds (s.origin k whence + offset) := by
    rw [u64_holds]
    omega
  rw [hseek, if_neg (by omega), Build.cast_exact hout, panicked_bind]

/-! ### Writing and closing -/

theorem write_settled (h : s.Sound t) (hlen : data.length ≤ t.isizeMax)
    (hw : (Op.write k data).Within t s) :
    Settled t s (.write k data) (s.call B t (.write k data)) := by
  change Settled t s _ (s.write B t k data)
  by_cases ho : (s.fds k).Opened
  · by_cases hdata : data = []
    · have hdone : s.write B t k data = done (s, 0) := by
        rw [Sys.write, Sys.check_done ho.1 (fun _ => ho.2), done_bind, if_pos hdata]
        rfl
      rw [hdone]
      exact .done s 0 ⟨rfl, rfl, by rw [hdata]; rfl, absurd hdata⟩ h
    · have htakes := hw ho hdata
      by_cases hforward : (s.fds k).flushed ≤ (s.fds k).pos
      · obtain ⟨u, hdone, hu, hwrote⟩ : ∃ u, s.write B t k data = done (u, (data.length : ℤ)) ∧ _ :=
          Sys.write_done h ho hlen hdata htakes hforward
        rw [hdone]
        refine .done u _ ⟨?_, ?_, rfl, fun _ => ⟨hwrote.pos, hwrote.extent⟩⟩ hu
        · rw [hwrote.leaf]
        · rw [hwrote.leaf]
      · exact Settled.unchanged h (Sys.write_refused h ho hlen hdata htakes.1 (not_le.mp hforward))
  · apply Settled.unchanged h
    obtain ⟨e, hcheck⟩ : ∃ e, s.check k true = refused (e, s) :=
      Sys.check_refused fun hc => ho ⟨hc.1, hc.2 rfl⟩
    exact ⟨e, by rw [Sys.write, hcheck, refused_bind]⟩

theorem close_settled (h : s.Sound t) (hw : (Op.close k valid msg).Within t s) :
    Settled t s (.close k valid msg) (s.call B t (.close k valid msg)) := by
  change Settled t s _ (s.close B k valid msg)
  by_cases ho : (s.fds k).Opened
  · cases valid with
    | true =>
      obtain ⟨u, hdone, hu, hsize⟩ : ∃ u, s.close B k true msg = done (u, 0) ∧ _ :=
        Sys.close_done h ho (hw ho rfl)
      rw [hdone]
      exact .done u 0 (hsize.trans (if_pos ho).symm) hu
    | false =>
      obtain ⟨e, u, hrefused, rfl, hu⟩ : ∃ e u, s.close B k false msg = refused (e, u) ∧ _ :=
        Sys.close_refused h ho
      rw [hrefused]
      exact .refused e _ (.setFd rfl) hu
  · obtain ⟨u, hdone, hu, hleaf⟩ : ∃ u, s.close B k valid msg = done (u, 0) ∧ _ :=
      Sys.close_idle h ho
    rw [hdone]
    exact .done u 0 ((congrArg Leaf.size hleaf).trans (if_neg ho).symm) hu

theorem write_panics (h : s.Sound t) (hlen : data.length ≤ t.isizeMax)
    (hw : ¬(Op.write k data).Within t s) :
    s.call .exact t (.write k data) = panicked := by
  rw [Op.Within, Classical.not_imp, Classical.not_imp] at hw
  obtain ⟨ho, hdata, hbad⟩ := hw
  exact Sys.write_panics h ho hlen hdata hbad

theorem close_panics (h : s.Sound t) (hw : ¬(Op.close k valid msg).Within t s) :
    s.call .exact t (.close k valid msg) = panicked := by
  rw [Op.Within, Classical.not_imp, Classical.not_imp, not_le] at hw
  obtain ⟨ho, rfl, hbad⟩ := hw
  exact Sys.close_panics h ho hbad

/-! ### Opening -/

theorem openRead_settled (h : s.Sound t) (hw : (Op.openRead a k).Within t s) :
    Settled t s (.openRead a k) (s.call B t (.openRead a k)) := by
  change Settled t s _ (s.openRead B t k a)
  have hnonneg := h.leaf.nonneg
  have hfits := h.leaf.fits
  have hcolumn := h.leaf.column
  by_cases hfinds : a.Finds
  · by_cases hc : 0 < s.leaf.chunkSize
    · have hmax : max s.leaf.size 0 = s.leaf.size := max_eq_left hnonneg
      have hopen : s.openRead B t k a =
          done (s.setFd k (Descriptor.reader s.leaf.chunkSize s.leaf.version s.leaf.size), 0) := by
        simp only [Sys.openRead, findLeaf_done hfinds, chunkSizeOf_done hc (hw hfinds hc), Sys.txn,
          done_bind, hmax,
          Build.cast_of_holds (u64_holds.mpr (show 0 ≤ s.leaf.size ∧ _ by omega)),
          Build.cast_of_holds (u64_holds.mpr (show 0 ≤ s.leaf.chunkSize ∧ _ by omega)),
          pure_eq_done]
      rw [hopen]
      have hzero : (0 : ℤ) ≤ 18446744073709551615 := by decide
      refine .done _ _ rfl (h.setFd ⟨fun _ => ⟨le_rfl, hzero⟩, fun _ _ => ⟨hnonneg, ?_⟩, ?_⟩ ?_)
      · change s.leaf.size ≤ _
        omega
      · intro _ hwritable
        cases hwritable
      · intro v ho
        cases ho.2
    · apply Settled.unchanged h
      obtain ⟨e, he⟩ := chunkSizeOf_refused (B := B) (t := t) hc
      exact ⟨e, by simp only [Sys.openRead, findLeaf_done hfinds, he, Sys.txn,
        done_bind, refused_bind]⟩
  · apply Settled.unchanged h
    obtain ⟨e, he⟩ := findLeaf_refused (L := s.leaf) hfinds
    exact ⟨e, by simp only [Sys.openRead, he, Sys.txn, refused_bind]⟩

theorem openRead_panics (hw : ¬(Op.openRead a k).Within t s) :
    s.call .exact t (.openRead a k) = panicked := by
  rw [Op.Within, Classical.not_imp, Classical.not_imp] at hw
  obtain ⟨hfinds, hc, hbad⟩ := hw
  change s.openRead .exact t k a = panicked
  simp only [Sys.openRead, findLeaf_done hfinds, chunkSizeOf_panics hc hbad, Sys.txn,
    done_bind, panicked_bind]

/-- A writer that has claimed nothing yet: the chunks it is to carry, and what is pending
after them. -/
theorem Sys.Sound.setFd_writer (h : s.Sound t) (hc : 0 < s.leaf.chunkSize)
    (husize : t.usize.Holds s.leaf.chunkSize) {pos src full : ℤ}
    {pending : Bytes} (hpos : 0 ≤ pos ∧ pos ≤ 9223372036854775807) (hfull : 0 ≤ full)
    (hextent : full * s.leaf.chunkSize + pending.length ≤ 9223372036854775807)
    (hshort : pending.length < s.leaf.chunkSize)
    (hroom : pending.length ≤ t.isizeMax)
    (hsrc : ∀ i, 0 ≤ i → i < full → ∃ b, s.leaf.chunk src i = some b ∧
      (b.length : ℤ) = s.leaf.chunkSize) :
    (s.setFd k ⟨true, s.leaf.chunkSize, pos, false, 0, 0, none, src, full, false, full,
      full * s.leaf.chunkSize, pending⟩).Sound t := by
  have hself := le_mul_self hc hfull
  refine h.setFd ⟨fun _ => ⟨hpos.1, hpos.2.trans (by decide)⟩, ?_, fun _ _ => ⟨?_, hshort⟩⟩ ?_
  · intro _ hr
    cases hr
  · refine ⟨rfl, rfl, hc, rfl, husize, ⟨hpos.1, hpos.2.trans (by decide)⟩, ⟨hfull, ?_⟩, rfl,
      ?_, hroom, ?_, ?_⟩
    · dsimp only
      omega
    · rw [Descriptor.extent]
      dsimp only
      omega
    · intro v hv
      cases hv
    · intro _
      refine ⟨rfl, rfl, ?_, hsrc⟩
      dsimp only
      omega
  · intro v _ hv
    cases hv

/-- An appending writer starts from the old partial tail. -/
theorem Sys.openWrite_appending (h : s.Sound t) (hg : a.Grants) (hc : 0 < s.leaf.chunkSize)
    (husize : t.usize.Holds s.leaf.chunkSize) :
    ∃ tail : Bytes, (tail.length : ℤ) = s.leaf.size % s.leaf.chunkSize ∧
      s.openWrite B t k a .appending =
      s.txn (toVec t.isizeMax tail) >>= fun pending =>
        done (s.setFd k ⟨true, s.leaf.chunkSize, s.leaf.size, false, 0, 0, none,
        s.leaf.version, s.leaf.size / s.leaf.chunkSize, false, s.leaf.size / s.leaf.chunkSize,
        s.leaf.size / s.leaf.chunkSize * s.leaf.chunkSize, pending⟩, 0) := by
  have hnonneg := h.leaf.nonneg
  have hfits := h.leaf.fits
  have hcolumn := h.leaf.column
  have hcast : u64.Holds s.leaf.chunkSize := u64_holds.mpr (by omega)
  have hmax : max s.leaf.size 0 = s.leaf.size := max_eq_left hnonneg
  have hfull0 := h.leaf.div_nonneg hc
  have hfull := h.leaf.div_le hc
  have hbase := (div_bounds (x := s.leaf.size) hc).1
  have hmul := Int.mul_nonneg hfull0 hc.le
  obtain ⟨tail, hlen, htail⟩ : ∃ d : Bytes, (d.length : ℤ) = s.leaf.size % s.leaf.chunkSize ∧ _ :=
    h.leaf.tail_eq (t := t) hc Adds.refl
  have hmod : (if 0 < s.leaf.size then s.leaf.size.tmod s.leaf.chunkSize else 0) =
      s.leaf.size % s.leaf.chunkSize := by
    by_cases hpos : 0 < s.leaf.size
    · rw [if_pos hpos, h.leaf.tmod_eq]
    · rw [if_neg hpos, show s.leaf.size = 0 by omega, Int.zero_emod]
  refine ⟨tail, hlen, ?_⟩
  simp only [Sys.openWrite, writableLeaf_done hg, chunkSizeOf_done hc husize, Sys.txn, done_bind,
    Build.cast_of_holds hcast, hmax,
    Build.cast_of_holds (u64_holds.mpr (show 0 ≤ s.leaf.size ∧ _ by omega)), h.leaf.tdiv_eq, hmod,
    htail,
    Build.cast_of_holds
      (i64_holds.mpr (show -9223372036854775808 ≤ s.leaf.size / s.leaf.chunkSize ∧ _ by omega)),
    Build.arith_of_holds
      (u64_holds.mpr (show 0 ≤ s.leaf.size / s.leaf.chunkSize * s.leaf.chunkSize ∧ _ by omega)),
      pure_eq_done]

theorem openWrite_settled (h : s.Sound t) (hw : (Op.openWrite a k mode).Within t s) :
    Settled t s (.openWrite a k mode) (s.call B t (.openWrite a k mode)) := by
  change Settled t s _ (s.openWrite B t k a mode)
  by_cases hg : a.Grants
  swap
  · apply Settled.unchanged h
    obtain ⟨e, he⟩ := writableLeaf_refused (L := s.leaf) hg
    exact ⟨e, by simp only [Sys.openWrite, he, Sys.txn, refused_bind]⟩
  by_cases hc : 0 < s.leaf.chunkSize
  swap
  · apply Settled.unchanged h
    obtain ⟨e, he⟩ := chunkSizeOf_refused (B := B) (t := t) hc
    exact ⟨e, by simp only [Sys.openWrite, writableLeaf_done hg, he, Sys.txn,
      done_bind, refused_bind]⟩
  obtain ⟨husize, hroom⟩ := hw hg hc
  cases mode with
  | truncating =>
    have hcolumn := h.leaf.column
    have hopen : s.openWrite B t k a .truncating = done (s.setFd k
        ⟨true, s.leaf.chunkSize, 0, false, 0, 0, none, 0, 0, false, 0, 0 * s.leaf.chunkSize, []⟩,
        0) := by
      simp only [Sys.openWrite, writableLeaf_done hg, chunkSizeOf_done hc husize, Sys.txn,
        done_bind,
        Build.cast_of_holds (u64_holds.mpr (show 0 ≤ s.leaf.chunkSize ∧ _ by omega)), pure_eq_done,
        zero_mul]
    rw [hopen]
    refine .done _ _ rfl
      (h.setFd_writer hc husize ⟨le_rfl, by decide⟩ le_rfl ?_ hc (Nat.zero_le _) ?_)
    · rw [zero_mul, List.length_nil]
      decide
    · intro i h0 hi
      omega
  | appending =>
    have hle := hroom rfl
    have hfits := h.leaf.fits
    have hdiv := Int.mul_ediv_add_emod s.leaf.size s.leaf.chunkSize
    have hcomm := Int.mul_comm s.leaf.chunkSize (s.leaf.size / s.leaf.chunkSize)
    have hrest := Int.emod_lt_of_pos s.leaf.size hc
    obtain ⟨tail, hlen, hopen⟩ := Sys.openWrite_appending (B := B) (k := k) h hg hc husize
    rw [hopen, toVec, if_pos (by omega), Sys.txn, done_bind]
    refine .done _ _ rfl (h.setFd_writer hc husize ⟨h.leaf.nonneg, hfits⟩ (h.leaf.div_nonneg hc)
      (by omega) (by omega) (by omega) ?_)
    intro i h0 hi
    exact h.leaf.leading hc h0 hi

theorem openWrite_panics (h : s.Sound t) (hw : ¬(Op.openWrite a k mode).Within t s) :
    s.call .exact t (.openWrite a k mode) = panicked := by
  rw [Op.Within, Classical.not_imp, Classical.not_imp] at hw
  obtain ⟨hg, hc, hbad⟩ := hw
  change s.openWrite .exact t k a mode = panicked
  by_cases husize : t.usize.Holds s.leaf.chunkSize
  · obtain ⟨rfl, hover⟩ : mode = .appending ∧ t.isizeMax < s.leaf.size % s.leaf.chunkSize := by
      by_contra hno
      exact hbad ⟨husize, fun hmode => not_lt.mp fun hlt => hno ⟨hmode, hlt⟩⟩
    obtain ⟨tail, hlen, hopen⟩ := Sys.openWrite_appending (B := .exact) (k := k) h hg hc husize
    rw [hopen, toVec, if_neg (by omega), Sys.txn, panicked_bind]
  · simp only [Sys.openWrite, writableLeaf_done hg, chunkSizeOf_panics hc husize, Sys.txn,
      done_bind, panicked_bind]

/-! ### The calls on the leaf -/

section

variable {x : Outcome FsError (Leaf × ℤ)} {size answer : ℤ} {f : ℤ → Outcome FsError (Leaf × ℤ)}

theorem Settled.rolledBack (h : s.Sound t) (hx : ∃ e, x = .refused e) :
    Settled t s op (s.onLeaf x) := by
  obtain ⟨e, rfl⟩ := hx
  exact .refused e s .refl h

/-- A version that was staged is committed. -/
theorem Settled.committed (h : s.Sound t)
    (hx : ∃ M, x = .done (M.swapPointer s.leaf.allocVersion size, answer) ∧
      Grown s.leaf M s.leaf.allocVersion size) (h0 : 0 ≤ size) (hsize : size ≤ 9223372036854775807)
    (hright : ∀ u : Sys, u.leaf.size = size → op.Right s u answer) :
    Settled t s op (s.onLeaf x) := by
  obtain ⟨M, rfl, hM⟩ := hx
  obtain ⟨hsound, hmoves⟩ := hM.committed h.leaf h0 hsize
  exact .done _ _ (hright _ rfl) (h.moves hsound hmoves fun l ho => h.unclaimed ho le_rfl)

theorem Sys.onLeaf_panics (hx : x = .panicked) : s.onLeaf x = panicked := by
  rw [hx]
  rfl

/-- What every write of the leaf begins with. -/
theorem writing_refused (hno : ¬(a.Grants ∧ 0 < L.chunkSize)) :
    ∃ e, (writableLeaf a L >>= fun _ => chunkSizeOf B t L >>= f) = refused e := by
  by_cases hg : a.Grants
  · obtain ⟨e, he⟩ := chunkSizeOf_refused (B := B) (t := t) (fun hc => hno ⟨hg, hc⟩)
    exact ⟨e, by rw [writableLeaf_done hg, done_bind, he, refused_bind]⟩
  · obtain ⟨e, he⟩ := writableLeaf_refused (L := L) hg
    exact ⟨e, by rw [he, refused_bind]⟩

theorem writing_panics (hg : a.Grants) (hc : 0 < L.chunkSize)
    (husize : ¬t.usize.Holds L.chunkSize) :
    (writableLeaf a L >>= fun _ => chunkSizeOf .exact t L >>= f) = panicked := by
  rw [writableLeaf_done hg, done_bind, chunkSizeOf_panics hc husize, panicked_bind]

theorem truncate_settled (h : s.Sound t) (hp : u64.Holds size)
    (hw : (Op.truncate a size).Within t s) :
    Settled t s (.truncate a size) (s.call B t (.truncate a size)) := by
  change Settled t s _ (s.onLeaf (truncate B t a s.leaf size))
  by_cases hgc : a.Grants ∧ 0 < s.leaf.chunkSize
  · obtain ⟨hg, hc⟩ := hgc
    obtain ⟨husize, hfits⟩ := hw hg hc
    have h0 := (u64_holds.mp hp).1
    by_cases hsame : size = s.leaf.size
    · rw [hsame, truncate_same h.leaf hc hg husize]
      exact .done s 0 rfl h
    · exact .committed h (truncate_done h.leaf hc hg husize h0 hfits hsame) h0 hfits.1
        (fun _ hu => hu)
  · exact .rolledBack h (writing_refused hgc)

theorem truncate_call_panics (h : s.Sound t) (hp : u64.Holds size)
    (hw : ¬(Op.truncate a size).Within t s) :
    s.call .exact t (.truncate a size) = panicked := by
  rw [Op.Within, Classical.not_imp, Classical.not_imp] at hw
  obtain ⟨hg, hc, hbad⟩ := hw
  apply Sys.onLeaf_panics
  by_cases husize : t.usize.Holds s.leaf.chunkSize
  · exact truncate_panics h.leaf hc hg husize (u64_holds.mp hp).1 fun hfits => hbad ⟨husize, hfits⟩
  · exact writing_panics hg hc husize

theorem sizeOf_done (hL : L.Sound) (hf : a.Finds) : sizeOf B a L = done (L, L.size) := by
  have hnonneg := hL.nonneg
  have hfits := hL.fits
  have hmax : max L.size 0 = L.size := max_eq_left hnonneg
  simp only [sizeOf, findLeaf_done hf, done_bind, hmax,
    Build.cast_of_holds (u64_holds.mpr (show 0 ≤ L.size ∧ _ by omega)), pure_eq_done]

/-- With no data to write, the size is read. -/
theorem sizeOf_settled (h : s.Sound t) (hright : op.Right s s s.leaf.size) :
    Settled t s op (s.onLeaf (sizeOf B a s.leaf)) := by
  by_cases hf : a.Finds
  · rw [sizeOf_done h.leaf hf]
    exact .done s _ hright h
  · obtain ⟨e, he⟩ := findLeaf_refused (L := s.leaf) hf
    exact .rolledBack h ⟨e, by rw [sizeOf, he, refused_bind]⟩

theorem append_settled (h : s.Sound t) (hw : (Op.append a data).Within t s) :
    Settled t s (.append a data) (s.call B t (.append a data)) := by
  change Settled t s _ (s.onLeaf (append B t a s.leaf data))
  have hnonneg := h.leaf.nonneg
  by_cases hdata : data = []
  · rw [append, if_pos hdata]
    refine sizeOf_settled h ⟨?_, rfl⟩
    rw [hdata, List.length_nil]
    exact (add_zero _).symm
  by_cases hgc : a.Grants ∧ 0 < s.leaf.chunkSize
  · obtain ⟨hg, hc⟩ := hgc
    obtain ⟨husize, hfits, hwindow⟩ := hw hdata hg hc
    exact .committed h (append_done h.leaf hc hg husize hdata hfits hwindow) (by omega) hfits
      (fun _ hu => ⟨hu, hu.symm⟩)
  · rw [append, if_neg hdata]
    exact .rolledBack h (writing_refused hgc)

theorem append_call_panics (h : s.Sound t) (hlen : data.length ≤ t.isizeMax)
    (hw : ¬(Op.append a data).Within t s) :
    s.call .exact t (.append a data) = panicked := by
  rw [Op.Within, Classical.not_imp, Classical.not_imp, Classical.not_imp] at hw
  obtain ⟨hdata, hg, hc, hbad⟩ := hw
  apply Sys.onLeaf_panics
  by_cases husize : t.usize.Holds s.leaf.chunkSize
  · exact append_panics h.leaf hc hg husize hdata hlen fun hfits => hbad ⟨husize, hfits⟩
  · rw [append, if_neg hdata]
    exact writing_panics hg hc husize

theorem writeRange_settled (h : s.Sound t) (hp : u64.Holds offset)
    (hw : (Op.writeRange a offset data).Within t s) :
    Settled t s (.writeRange a offset data) (s.call B t (.writeRange a offset data)) := by
  change Settled t s _ (s.onLeaf (writeRange B t a s.leaf offset data))
  have hnonneg := h.leaf.nonneg
  have hsize := h.leaf.fits
  by_cases hdata : data = []
  · rw [writeRange, if_pos hdata]
    exact sizeOf_settled h ⟨(if_pos hdata).symm, rfl⟩
  by_cases hgc : a.Grants ∧ 0 < s.leaf.chunkSize
  · obtain ⟨hg, hc⟩ := hgc
    obtain ⟨husize, hfits⟩ := hw hdata hg hc
    have h0 := (u64_holds.mp hp).1
    have hend := hfits.1
    refine .committed h (writeRange_done h.leaf hc h0 hdata hg husize hfits) (by omega) (by omega)
      fun u hu => ⟨?_, hu.symm⟩
    rw [if_neg hdata, hu]
  · rw [writeRange, if_neg hdata]
    exact .rolledBack h (writing_refused hgc)

theorem writeRange_call_panics (h : s.Sound t) (hp : u64.Holds offset)
    (hlen : data.length ≤ t.isizeMax) (hw : ¬(Op.writeRange a offset data).Within t s) :
    s.call .exact t (.writeRange a offset data) = panicked := by
  rw [Op.Within, Classical.not_imp, Classical.not_imp, Classical.not_imp] at hw
  obtain ⟨hdata, hg, hc, hbad⟩ := hw
  apply Sys.onLeaf_panics
  by_cases husize : t.usize.Holds s.leaf.chunkSize
  · exact writeRange_panics h.leaf hc (u64_holds.mp hp).1 hdata hg husize hlen fun hfits =>
      hbad ⟨husize, hfits⟩
  · rw [writeRange, if_neg hdata]
    exact writing_panics hg hc husize

end

/-! ### Every call -/

theorem call_settled (h : s.Sound t) (hp : op.Passable t) (hw : op.Within t s) :
    Settled t s op (s.call B t op) := by
  cases op with
  | truncate a size => exact truncate_settled h hp hw
  | writeRange a offset data => exact writeRange_settled h hp.1 hw
  | append a data => exact append_settled h hw
  | openRead a k => exact openRead_settled h hw
  | openWrite a k mode => exact openWrite_settled h hw
  | seek k offset whence => exact seek_settled h hw
  | write k data => exact write_settled h hp hw
  | close k valid msg => exact close_settled h hw

/-- Past its bounds a call loses a value, or asks for more than a vector can hold. -/
theorem call_panics (h : s.Sound t) (hp : op.Passable t) (hw : ¬op.Within t s) :
    s.call .exact t op = panicked := by
  cases op with
  | truncate a size => exact truncate_call_panics h hp hw
  | writeRange a offset data => exact writeRange_call_panics h hp.1 hp.2 hw
  | append a data => exact append_call_panics h hp hw
  | openRead a k => exact openRead_panics hw
  | openWrite a k mode => exact openWrite_panics h hw
  | seek k offset whence => exact seek_panics h hw
  | write k data => exact write_panics h hp hw
  | close k valid msg => exact close_panics h hw

/-- A call within its bounds leads to the state it leaves, whether it is done or refused. -/
inductive Step (t : Target) (s : Sys) : Sys → Prop
  | done (B : Build) (op : Op) (u : Sys) (answer : ℤ) (hp : op.Passable t) (hw : op.Within t s)
    (h : s.call B t op = .done (u, answer)) : Step t s u
  | refused (B : Build) (op : Op) (u : Sys) (e : FsError) (hp : op.Passable t) (hw : op.Within t s)
    (h : s.call B t op = .refused (e, u)) : Step t s u

/-- The states of the runs from every committed content on which nothing is open. -/
def Reached (t : Target) (s : Sys) : Prop :=
  ∃ L : Leaf, L.Sound ∧ ReflTransGen (Step t) ⟨L, fun _ => Descriptor.unused⟩ s

theorem Step.sound (h : Step t s u) (hs : s.Sound t) : u.Sound t := by
  cases h with
  | done B op u answer hp hw hcall =>
    have hsettled := call_settled (B := B) hs hp hw
    rw [hcall] at hsettled
    cases hsettled with
    | done _ _ _ hu => exact hu
  | refused B op u e hp hw hcall =>
    have hsettled := call_settled (B := B) hs hp hw
    rw [hcall] at hsettled
    cases hsettled with
    | refused _ _ _ hu => exact hu

theorem Reached.sound (h : Reached t s) : s.Sound t := by
  obtain ⟨L, hL, hrun⟩ := h
  induction hrun with
  | refl =>
    refine ⟨hL, fun _ => Descriptor.sound_of_closed rfl, ?_⟩
    intro k l v _ ho
    cases ho.1
  | tail _ hstep ih => exact hstep.sound ih

/-- The call answers as in unbounded arithmetic and commits no negative size, or it refuses
and leaves the state as it was. -/
def Op.Safe (op : Op) (s : Sys) : Call (Sys × ℤ) → Prop
  | .done (u, answer) => op.Right s u answer ∧ 0 ≤ u.leaf.size
  | .refused (_, u) => s.Kept u
  | .panicked => False

/-- In every build, the one that panics at any lost value included, a call is safe exactly
when it stays within its bounds. -/
theorem content_limits (hs : Reached t s) (hp : op.Passable t) :
    (∀ B, op.Safe s (s.call B t op)) ↔ op.Within t s := by
  constructor
  · intro hsafe
    by_contra hw
    have hexact := hsafe .exact
    rw [call_panics hs.sound hp hw] at hexact
    exact hexact
  · intro hw B
    have hsettled := call_settled (B := B) hs.sound hp hw
    generalize s.call B t op = x at hsettled
    cases hsettled with
    | done u answer hright hu => exact ⟨hright, hu.leaf.nonneg⟩
    | refused e u hkept hu => exact hkept

/-- A leaf that was just created, in a volume with chunks of 64 KiB. -/
def created : Sys := ⟨⟨"leaf", "volume", 65536, 0, 0, []⟩, fun _ => Descriptor.unused⟩

def granted : Access := ⟨none, false, false⟩

theorem reached_created : Reached .native created := by
  refine ⟨created.leaf, ⟨le_rfl, by decide, by decide, ?_⟩, .refl⟩
  intro _ i h0 hi
  change i * 65536 < 0 at hi
  omega

theorem content_limits_created :
    (∀ B, (Op.truncate granted 70000).Safe created
      (created.call B .native (.truncate granted 70000))) ↔
      (Op.truncate granted 70000).Within .native created :=
  content_limits reached_created (u64_holds.mpr (by decide))

/-- In a release build a size from 2 ^ 63 on is committed as a negative one. -/
theorem negative_size_committed :
    Reached .native created ∧ (Op.truncate granted 9223372036854775808).Passable .native ∧
      (∃ u, created.call .release .native (.truncate granted 9223372036854775808) = done (u, 0) ∧
        u.leaf.size = -9223372036854775808) ∧
      ¬(Op.truncate granted 9223372036854775808).Safe created
        (created.call .release .native (.truncate granted 9223372036854775808)) := by
  have htruncate : truncate .release .native granted created.leaf 9223372036854775808 =
      done (⟨"leaf", "volume", 65536, 1, -9223372036854775808, []⟩, 0) := by decide +kernel
  have hcall : created.call .release .native (.truncate granted 9223372036854775808) =
      done ({ created with
        leaf := ⟨"leaf", "volume", 65536, 1, -9223372036854775808, []⟩ }, 0) := by
    rw [Sys.call, htruncate]
    rfl
  refine ⟨reached_created, u64_holds.mpr (by decide), ⟨_, hcall, rfl⟩, ?_⟩
  rw [hcall]
  intro hsafe
  exact absurd hsafe.2 (by decide)

end Aloelite.Rust
