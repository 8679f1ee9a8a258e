import Aloelite.Readback
import Aloelite.ReaderSteps

/-! The content operations against a byte array: what `append`, `write_range` and
`truncate` make of an entry, the version they make it in, and the versions they leave
as they were. -/
namespace Aloelite

open Fallible KeyedRows Patches

variable {C : Crypto} {M : Msgpack} {σ : Type} {R : Reading C σ} {own : VolumeId → Cipher}
  {V : VolumeId} {E : Env} {k : Cipher} {db db' : Db} {tx tx' tx₁ tx₂ : Tx} {s : Sys} {l : Label}
  {n : NodeId} {data c : Bytes} {mount : MountId} {path : String} {a : Reply} {size : ℕ}

/-- An operation on the content of an entry. -/
inductive Edit where
  | append (data : Bytes)
  | writeRange (offset : ℕ) (data : Bytes)
  | truncate (size : ℕ)
  deriving DecidableEq, Repr

namespace Edit

/-- The call that asks for it. -/
def request (path : String) : Edit → Request
  | append data => .append path data
  | writeRange offset data => .writeRange path offset data
  | truncate size => .truncate path size

/-- What it makes of a byte array. A write of nothing makes nothing, whatever its
offset. -/
def reference (c : Bytes) : Edit → Bytes
  | append data => c ++ data
  | writeRange offset data => if data = [] then c else patch 0 c offset data
  | truncate size => c.take size ++ List.replicate (size - c.length) 0

/-- Nothing to do. -/
def idle (c : Bytes) : Edit → Prop
  | append data => data = []
  | writeRange _ data => data = []
  | truncate size => size = c.length

instance (c : Bytes) : DecidablePred (idle c)
  | append data => inferInstanceAs (Decidable (data = []))
  | writeRange _ data => inferInstanceAs (Decidable (data = []))
  | truncate size => inferInstanceAs (Decidable (size = c.length))

/-- The reply that tells the result. -/
def answer (c : Bytes) : Edit → Reply
  | append _ | writeRange _ _ => .size c.length
  | truncate _ => .done

theorem reference_idle {edit : Edit} (h : edit.idle c) : edit.reference c = c := by
  cases edit with
  | append data =>
    obtain rfl : data = [] := h
    exact List.append_nil c
  | writeRange offset data => exact if_pos h
  | truncate size =>
    obtain rfl : size = c.length := h
    simp [reference]

end Edit

/-! ### One new version -/

/-- Between two files an entry got one new version, and every other version of any entry
reads as it did. -/
structure OneVersion (C : Crypto) (n : NodeId) (db db' : Db) : Prop where
  pointer : db'.committedVersion n = some (db.nextVersion n)
  fresh : db.manifest n (db.nextVersion n) = [] ∧ db.committedVersion n ≠ some (db.nextVersion n)
  rows : ∃ added, db'.versions = db.versions ++ added ∧
    ∀ r ∈ added, r.contentId = n ∧ r.version = db.nextVersion n
  others : ∀ m v, ¬ (m = n ∧ v = db.nextVersion n) → db'.manifest m v = db.manifest m v ∧
    ∀ k lo hi, readChunkRange C k db' m v lo hi = readChunkRange C k db m v lo hi

/-- Rows added to one version leave the others with the pool rows they had. -/
theorem Grown.sameVersion {m : NodeId} {v w : ℕ} (h : Grown C n v tx tx') (hp : tx.db.Pooled)
    (hne : ¬ (m = n ∧ w = v)) : SameVersion m w tx.db tx'.db := by
  refine ⟨h.manifest_other hne, ?_⟩
  intro r hr
  -- every row has its pool row, and no pool row is lost or changed
  have hrow : r ∈ tx.db.versions := (Db.mem_manifest.mp hr).1
  obtain ⟨ch, hch⟩ := Option.isSome_iff_exists.mp (hp r hrow)
  rw [hch]
  exact h.keepsChunks _ r hr ch hch

theorem Rewrites.oneVersion (h : Rewrites R E V n data tx tx') (hp : tx.db.Pooled)
    (hc : (tx.db.content? n).isSome) : OneVersion C n tx.db tx'.db := by
  obtain ⟨tx₁, tx₂, hstaged, -, hswap, rfl⟩ := h
  obtain ⟨db₂, hexec, rfl⟩ := Tx.run_ok.mp hswap
  obtain rfl := Except.ok.inj hexec
  have hgrown := hstaged.toGrown
  refine ⟨?_, ⟨manifest_nextVersion, committedVersion_ne_nextVersion⟩, hgrown.rows, ?_⟩
  · show (tx₁.db.updateContent E.now n (tx.db.nextVersion n) data.length).committedVersion n = _
    obtain ⟨row, hrow⟩ := Option.isSome_iff_exists.mp hc
    rw [Db.committedVersion, content?_updateContent, if_pos rfl, hgrown.content, hrow]
    rfl
  · intro m v hne
    have hsame : SameVersion m v tx.db
        (tx₁.db.updateContent E.now n (tx.db.nextVersion n) data.length) := by
      obtain ⟨hmanifest, hpool⟩ := hgrown.sameVersion hp hne
      exact ⟨hmanifest, hpool⟩
    exact ⟨hsame.manifest, fun k lo hi => hsame.readChunkRange⟩

/-- The size recorded of a rewritten entry. -/
theorem Rewrites.recorded (h : Rewrites R E V n data tx tx') (hc : (tx.db.content? n).isSome) :
    (tx'.db.content? n).map ContentRow.size = some data.length := by
  obtain ⟨tx₁, tx₂, hstaged, -, hswap, rfl⟩ := h
  obtain ⟨db₂, hexec, rfl⟩ := Tx.run_ok.mp hswap
  obtain rfl := Except.ok.inj hexec
  obtain ⟨row, hrow⟩ := Option.isSome_iff_exists.mp hc
  show ((tx₁.db.updateContent E.now n (tx.db.nextVersion n) data.length).content? n).map
      ContentRow.size = _
  rw [content?_updateContent, if_pos rfl, hstaged.toGrown.content, hrow]
  rfl

theorem Rewrites.home {m : NodeId} (h : Rewrites R E V n data tx tx') :
    tx'.db.home? m = tx.db.home? m := by
  obtain ⟨tx₁, tx₂, hstaged, -, hswap, rfl⟩ := h
  obtain ⟨db₂, hexec, rfl⟩ := Tx.run_ok.mp hswap
  obtain rfl := Except.ok.inj hexec
  exact hstaged.toGrown.home

theorem Rewrites.committed (h : Rewrites R E V n data tx tx') : tx'.committed n = data := by
  obtain ⟨tx₁, tx₂, -, -, -, rfl⟩ := h
  exact Function.update_self _ _ _

/-! ### The operations -/

/-- The leaf a call is about, for a reader or a writer. -/
structure LeafAt (write : Bool) (E : Env) (k : Cipher) (db : Db) (mount : MountId) (path : String)
    (V : VolumeId) (n : NodeId) : Prop where
  resolved : ∃ m found, requireMount E k db mount write = .ok m ∧ m.volume = V ∧
    resolve db m.mountPoint path = .ok found ∧ found.node = n ∧ found.type ≠ .container

theorem leafAt_of_open {m : MountCtx} (h : openContent E k db mount path = .ok (m, n)) :
    LeafAt true E k db mount path m.volume n := by
  obtain ⟨hm, type, hleaf, hfound⟩ := openContent_ok h
  exact ⟨m, ⟨n, type⟩, hm, rfl, hfound, rfl, hleaf⟩

/-- The answer to a write of nothing is the size as it is. -/
theorem currentSize_leaf (hh : tx.db.Homed) (h : tx.Stored R)
    (hsize : currentSize E k tx.db mount path = .ok size) :
    ∃ V n, LeafAt true E k tx.db mount path V n ∧ tx.db.home? n = some V ∧
      size = (tx.committed n).length := by
  simp only [currentSize, bind_eq_ok, pure_eq_ok, refuse_eq_ok, decide_eq_false_iff_not] at hsize
  obtain ⟨m, hm, found, hfound, u, hleaf, rfl⟩ := hsize
  obtain ⟨hhome, c, hc, hkept⟩ := h.leaf hh hm hfound hleaf
  refine ⟨m.volume, found.node, ⟨m, found, hm, rfl, hfound, rfl, hleaf⟩, hhome, ?_⟩
  rw [readContentMeta, hc]
  exact hkept.size

/-- An edit that succeeds had nothing to do, or rewrote its leaf into the reference. -/
theorem Edit.run_rewrites {edit : Edit} (hk : R.FitsMount E k tx.db mount) (hh : tx.db.Homed)
    (h : tx.Stored R) (hrun : (edit.request path).run C M E k tx mount = .ok (tx', a))
    (hal : R.wary = true → tx'.aliased = false) :
    ∃ V n, LeafAt true E k tx.db mount path V n ∧ tx.db.home? n = some V ∧
      a = edit.answer (edit.reference (tx.committed n)) ∧
      (edit.idle (tx.committed n) ∧ tx' = tx ∨
        ¬ edit.idle (tx.committed n) ∧
          Rewrites R E V n (edit.reference (tx.committed n)) tx tx') := by
  cases edit with
  | append data =>
    simp only [Edit.request, Request.run, asReply, map_eq_ok, Prod.mk.injEq] at hrun
    obtain ⟨⟨t, size⟩, hr, rfl, rfl⟩ := hrun
    by_cases hdata : data = []
    · simp only [Aloelite.append, if_pos hdata, bind_eq_ok, pure_eq_ok, Prod.mk.injEq] at hr
      obtain ⟨size', hsize, rfl, rfl⟩ := hr
      obtain ⟨V, n, hleaf, hhome, rfl⟩ := currentSize_leaf hh h hsize
      refine ⟨V, n, hleaf, hhome, ?_, Or.inl ⟨hdata, rfl⟩⟩
      have hidle : (Edit.append data).idle (tx.committed n) := hdata
      rw [Edit.reference_idle hidle]
      rfl
    · obtain ⟨m, n, hopen, hhome, hrewrites, rfl⟩ := append_rewrites hk hh h hdata hr hal
      exact ⟨m.volume, n, leafAt_of_open hopen, hhome, rfl, Or.inr ⟨hdata, hrewrites⟩⟩
  | writeRange offset data =>
    simp only [Edit.request, Request.run, asReply, map_eq_ok, Prod.mk.injEq] at hrun
    obtain ⟨⟨t, size⟩, hr, rfl, rfl⟩ := hrun
    by_cases hdata : data = []
    · simp only [Aloelite.writeRange, if_pos hdata, bind_eq_ok, pure_eq_ok, Prod.mk.injEq] at hr
      obtain ⟨size', hsize, rfl, rfl⟩ := hr
      obtain ⟨V, n, hleaf, hhome, rfl⟩ := currentSize_leaf hh h hsize
      refine ⟨V, n, hleaf, hhome, ?_, Or.inl ⟨hdata, rfl⟩⟩
      have hidle : (Edit.writeRange offset data).idle (tx.committed n) := hdata
      rw [Edit.reference_idle hidle]
      rfl
    · obtain ⟨m, n, hopen, hhome, hrewrites, rfl⟩ := writeRange_rewrites hk hh h hdata hr hal
      have hpatch : (Edit.writeRange offset data).reference (tx.committed n) =
          patchWindow (tx.committed n) offset data := if_neg hdata
      refine ⟨m.volume, n, leafAt_of_open hopen, hhome, ?_, Or.inr ⟨hdata, ?_⟩⟩
      · rw [hpatch]
        rfl
      · rw [hpatch]
        exact hrewrites
  | truncate size =>
    simp only [Edit.request, Request.run, noReply, map_eq_ok, Prod.mk.injEq] at hrun
    obtain ⟨t, hr, rfl, rfl⟩ := hrun
    obtain ⟨m, n, hopen, hhome, hcases⟩ := truncate_rewrites hk hh h hr hal
    exact ⟨m.volume, n, leafAt_of_open hopen, hhome, rfl, hcases⟩

/-- What a run knows of a step it takes: the mount's cipher is its volume's own. -/
theorem Careful.fitsMount {r : Request} (h : Careful C M own s l) (hop : l.op = .request mount r)
    (hr : r.seals = true) :
    (Reading.exact (C := C) own).FitsMount l.env (s.conns l.conn).cipher s.db mount := by
  have hfitting := h.orderly.fitting
  rw [Fitting, hop] at hfitting
  exact hfitting hr

/-- An edit that succeeds makes of its entry what the byte array says, in one new
version, whose size it tells; one that has nothing to do leaves the whole file as it was.
Every other version keeps its rows and reads as it did. -/
theorem edits_match_byte_array {edit : Edit} (h : Reaches C M (Careful C M own) s)
    (hl : Careful C M own s l) (hop : l.op = .request mount (edit.request path))
    (hok : (exec C M l.env s l.conn l.op).2 = .ok a) :
    ∃ V n c, LeafAt true l.env (s.conns l.conn).cipher s.db mount path V n ∧
      readContentBytes C (own V) s.db n = .ok c ∧
      readContentBytes C (own V) (step C M s l).db n = .ok (edit.reference c) ∧
      ((step C M s l).db.content? n).map ContentRow.size = some (edit.reference c).length ∧
      a = edit.answer (edit.reference c) ∧
      (edit.idle c → (step C M s l).db = s.db) ∧
      (¬ edit.idle c → OneVersion C n s.db (step C M s l).db) := by
  have hwriters := h.orderly.writers
  have hstored : s.begin.Stored (Reading.exact (C := C) own) := hwriters.stored
  have hseals : (edit.request path).seals = true := by cases edit <;> rfl
  have hfits := hl.fitsMount hop hseals
  have hreach : Reaches C M (Careful C M own) (step C M s l) := h.snoc hl
  have hclear : (step C M s l).aliased = false := hl.2.2
  -- the transaction of the call
  obtain ⟨tx', hrun, hdb, hcommitted, haliased⟩ : ∃ tx',
      (edit.request path).run C M l.env (s.conns l.conn).cipher s.begin mount = .ok (tx', a) ∧
      (step C M s l).db = tx'.db ∧ (step C M s l).committed = tx'.committed ∧
      (step C M s l).aliased = tx'.aliased := by
    simp only [step]
    rw [hop] at hok ⊢
    simp only [exec] at hok ⊢
    cases hbody : (edit.request path).run C M l.env (s.conns l.conn).cipher s.begin mount with
    | error e =>
      rw [hbody] at hok
      cases hok
    | ok r =>
      rw [hbody] at hok
      obtain ⟨tx', a'⟩ := r
      obtain rfl : a' = a := Except.ok.inj hok
      exact ⟨tx', rfl, rfl, rfl, rfl⟩
  rw [haliased] at hclear
  obtain ⟨V, n, hleaf, hhome, hanswer, hcases⟩ :=
    Edit.run_rewrites hfits h.homed hstored hrun (fun _ => hclear)
  obtain ⟨m, found, hm, rfl, hfound, rfl, htype⟩ := hleaf.resolved
  obtain ⟨-, row, hrow₀, hkept⟩ := hstored.leaf h.homed hm hfound htype
  have hrow : s.db.content? found.node = some row := hrow₀
  have hsome : (s.db.content? found.node).isSome := Option.isSome_iff_exists.mpr ⟨row, hrow⟩
  have hread : readContentBytes C (own m.volume) s.db found.node =
      .ok (s.committed found.node) :=
    h.readsCommitted hhome hrow
  refine ⟨m.volume, found.node, s.committed found.node, hleaf, hread, ?_⟩
  -- nothing to do, and the file is as it was; or one new version with the edited content
  rcases hcases with ⟨hidle, htx⟩ | ⟨hbusy, hrewrites⟩
  · have hsame : (step C M s l).db = s.db := by
      rw [hdb, htx]
      rfl
    have hreference : edit.reference (s.committed found.node) = s.committed found.node :=
      Edit.reference_idle hidle
    rw [hsame, hreference]
    refine ⟨hread, ?_, ?_, fun _ => rfl, fun hbusy => absurd hidle hbusy⟩
    · rw [hrow]
      exact congrArg some hkept.size
    · rw [← hreference]
      exact hanswer
  · have hone := hrewrites.oneVersion h.pooled hsome
    have hsize := hrewrites.recorded hsome
    rw [hdb]
    refine ⟨?_, hsize, hanswer, fun hidle => absurd hidle hbusy, fun _ => hone⟩
    obtain ⟨row', hrow', -⟩ := Option.map_eq_some_iff.mp hsize
    have hrow₁ : (step C M s l).db.content? found.node = some row' := by
      rw [hdb]
      exact hrow'
    have hhome' : (step C M s l).db.home? found.node = some m.volume := by
      rw [hdb]
      exact hrewrites.home.trans hhome
    have hread' := hreach.readsCommitted hhome' hrow₁
    rw [hcommitted, hrewrites.committed, hdb] at hread'
    exact hread'

/-- Three sealed bytes in chunks of two, and a write past them: the gap is zero. -/
theorem edits_match_byte_array_gap :
    let s := (sealedRun.take 3).foldl (step Crypto.xorStream Msgpack.refusing) {}
    let l : Label := ⟨.counting 6, 0, .request 2 (.writeRange "x" 4 [6])⟩
    readContentBytes Crypto.xorStream (sealedKey 1) (step Crypto.xorStream Msgpack.refusing s l).db
      4 =
        .ok [7, 8, 9, 0, 6] ∧
      OneVersion Crypto.xorStream 4 s.db (step Crypto.xorStream Msgpack.refusing s l).db := by
  intro s l
  have hguards : GuardedRuns.Guards (step Crypto.xorStream Msgpack.refusing)
      (Careful Crypto.xorStream Msgpack.refusing sealedKey) {} (sealedRun.take 3) := by
    decide +kernel
  have hl : Careful Crypto.xorStream Msgpack.refusing sealedKey s l := by decide +kernel
  have hop : l.op = .request 2 ((Edit.writeRange 4 [6]).request "x") := rfl
  have hok : (exec Crypto.xorStream Msgpack.refusing l.env s l.conn l.op).2 = .ok (.size 5) := by
    decide +kernel
  obtain ⟨V, n, c, hleaf, hread, hread', -, -, -, hversion⟩ :=
    edits_match_byte_array (reaches_foldl hguards) hl hop hok
  obtain ⟨m, found, hm, rfl, hfound, rfl, -⟩ := hleaf.resolved
  obtain rfl : m = ⟨2, 1, 1, .convergent⟩ := (Except.ok.inj hm).symm
  obtain rfl : found = ⟨4, .entry⟩ := (Except.ok.inj hfound).symm
  obtain rfl : c = [7, 8, 9] := (Except.ok.inj hread).symm
  exact ⟨hread', hversion (by decide)⟩

/-- In chunks of one byte the byte 6 under its own nonce has the ciphertext of the stored byte 5:
the append to the empty `y` succeeds, and `y` reads as the other byte. And an append of nothing
makes no version. -/
theorem append_misses_reference :
    (∃ s l, Reaches Crypto.xorStream Msgpack.refusing (fun s l => Apart s l ∧
      Keyed sealedKey s l) s ∧
      Apart s l ∧ Keyed sealedKey s l ∧ l.op = .request 2 ((Edit.append [6]).request "y") ∧
      readContentBytes Crypto.xorStream (sealedKey 0) s.db 6 = .ok [] ∧
      (exec Crypto.xorStream Msgpack.refusing l.env s l.conn l.op).2 = .ok (.size 1) ∧
      (Edit.append [6]).reference [] = [6] ∧
      readContentBytes Crypto.xorStream (sealedKey 0)
        (step Crypto.xorStream Msgpack.refusing s l).db 6 = .ok [5]) ∧
    ∃ s l, Reaches Crypto.xorStream Msgpack.refusing
        (Careful Crypto.xorStream Msgpack.refusing sealedKey) s ∧
      Careful Crypto.xorStream Msgpack.refusing sealedKey s l ∧
      l.op = .request 2 ((Edit.append []).request "x") ∧
      (exec Crypto.xorStream Msgpack.refusing l.env s l.conn l.op).2 = .ok (.size 3) ∧
      s.db.committedVersion 4 = some 1 ∧
      (step Crypto.xorStream Msgpack.refusing s l).db.committedVersion 4 = some 1 ∧
      (step Crypto.xorStream Msgpack.refusing s l).db.versions = s.db.versions := by
  let ls : List Label :=
    [⟨.counting 0, 0, .createVolume none 1 (some [4]) .convergent⟩,
      ⟨.counting 2, 0, .mount { volume := 0, pin := some [4] }⟩,
      ⟨.counting 4, 0, .request 2 (.createEntry "x" [5])⟩,
      ⟨.counting 6, 0, .request 2 (.createEntry "y" [])⟩]
  have hclashing : GuardedRuns.Guards (step Crypto.xorStream Msgpack.refusing)
      (fun s l => Apart s l ∧ Keyed sealedKey s l) {} ls := by
    decide +kernel
  have hguards : GuardedRuns.Guards (step Crypto.xorStream Msgpack.refusing)
      (Careful Crypto.xorStream Msgpack.refusing sealedKey) {} (sealedRun.take 3) := by
    decide +kernel
  constructor
  · refine ⟨ls.foldl (step Crypto.xorStream Msgpack.refusing) {},
      ⟨.counting 8, 0, .request 2 (.append "y" [6])⟩, reaches_foldl hclashing, ?_, ?_, rfl, ?_, ?_,
      rfl, ?_⟩
    all_goals decide +kernel
  · exact ⟨(sealedRun.take 3).foldl (step Crypto.xorStream Msgpack.refusing) {},
      ⟨.counting 6, 0, .request 2 (.append "x" [])⟩, reaches_foldl hguards, by decide +kernel, rfl,
      by rfl, by rfl, by rfl, by rfl⟩

end Aloelite
