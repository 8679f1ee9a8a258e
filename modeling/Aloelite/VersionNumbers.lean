import Aloelite.StreamRuns

/-! Versions count from one. No manifest row of a reachable file is of version 0, the version
of an entry that was never written. -/
namespace Aloelite

open Fallible KeyedRows Relation

variable {C : Crypto} {M : Msgpack} {E : Env} {k : Cipher} {L : License} {now : Int} {db db' : Db}
  {tx tx' : Tx} {mount : MountId} {path src dst : String} {data : Bytes} {n m : NodeId}
  {v w size count : ℕ} {ctx : MountCtx} {s : Sys} {c : ConnId} {op : Op}

def Db.Counted (db : Db) : Prop := ∀ r ∈ db.versions, r.version ≠ 0

theorem Db.Counted.congr (h : db.Counted) (hv : db'.versions = db.versions) : db'.Counted := by
  intro r hr
  exact h r (hv ▸ hr)

theorem Db.Counted.append {rows : List VersionRow} (h : db.Counted)
    (hv : db'.versions = db.versions ++ rows) (hrows : ∀ r ∈ rows, r.version ≠ 0) :
    db'.Counted := by
  intro r hr
  rw [hv] at hr
  rcases List.mem_append.mp hr with hold | hnew
  · exact h r hold
  · exact hrows r hnew

/-- Where nothing is born and only versions above 0 may be written, the count stands. -/
theorem Stride.counted (h : Stride L now db db') (hhost : ∀ n, ¬ L.host n)
    (hw : ∀ n v, L.write n v → v ≠ 0) (hc : db.Counted) : db'.Counted := by
  cases h with
  | birth row modifiedAt id f hf => exact absurd hf (hhost f)
  | stmt st hst hexec =>
    cases st with
    | insertChunkRef row =>
      obtain ⟨-, -, -, rfl⟩ := Db.insertChunkRef_ok hexec
      have hrows : ∀ r ∈ [row], r.version ≠ 0 := by
        intro r hr
        rw [List.mem_singleton.mp hr]
        exact hw _ _ hst
      exact hc.append rfl hrows
    | copyChunkRefs dst v src w =>
      obtain rfl := Db.insertRefs_ok hexec
      refine hc.append rfl ?_
      intro r hr
      obtain ⟨r₀, -, rfl⟩ := List.mem_map.mp hr
      exact hw _ _ hst
    | copyChunkRefsRange m v w lo hi =>
      obtain rfl := Db.insertRefs_ok hexec
      refine hc.append rfl ?_
      intro r hr
      obtain ⟨r₀, -, rfl⟩ := List.mem_map.mp hr
      exact hw _ _ hst
    | pruneNodes volume => exact hst.elim
    | pruneContentVersions volume => exact hst.elim
    | _ => exact hc.congr ((Stmt.exec_agreeOff hexec).versions (by simp [Stmt.touches]))

theorem Strides.counted (h : Strides L now db db') (hhost : ∀ n, ¬ L.host n)
    (hw : ∀ n v, L.write n v → v ≠ 0) (hc : db.Counted) : db'.Counted := by
  induction h with
  | refl => exact hc
  | tail _ hstride ih => exact hstride.counted hhost hw ih

/-! ### Content -/

/-- What content operations are entitled to, as far as the count goes. -/
def License.counting : License where
  host _ := False
  adopt := none
  detach _ := False
  write _ version := version ≠ 0
  session := False

theorem counted_of_strides (h : Strides .counting now db db') (hc : db.Counted) : db'.Counted :=
  h.counted (fun _ hf => hf) (fun _ _ hv => hv) hc

theorem stageChunks_counted (hv : v ≠ 0) (h : tx.stageChunks C E k n v w data = .ok tx')
    (hc : tx.db.Counted) :
    tx'.db.Counted :=
  counted_of_strides ((Tx.stageChunks_steps h).strides (Stages.granted (L := .counting) hv)) hc

theorem writeAll_counted (h : writeAll C E k tx mount path data = .ok tx') (hc : tx.db.Counted) :
    tx'.db.Counted := by
  simp only [writeAll, bind_eq_ok, pure_eq_ok] at h
  obtain ⟨⟨ctx, node⟩, -, tx₁, hstage, tx₂, hswap, rfl⟩ := h
  have hstaged := stageChunks_counted nextVersion_pos hstage hc
  have hswapped := swap_strides (L := .counting) nextVersion_pos hswap
  exact counted_of_strides hswapped hstaged

theorem append_counted (h : append C E k tx mount path data = .ok (tx', size))
    (hc : tx.db.Counted) : tx'.db.Counted := by
  simp only [append] at h
  split at h
  · simp only [bind_eq_ok, pure_eq_ok, Prod.mk.injEq] at h
    obtain ⟨size', -, rfl, -⟩ := h
    exact hc
  · simp only [bind_eq_ok, pure_eq_ok, Prod.mk.injEq] at h
    obtain ⟨⟨ctx, node⟩, -, u, -, tx₁, hcarry, tail, -, tx₂, hstage, tx₃, hswap, rfl, -⟩ := h
    have hcarried := carryLeading_strides (L := .counting) nextVersion_pos hcarry
    have hstaged := stageFrom_strides (L := .counting) nextVersion_pos hstage
    have hswapped := swap_strides (L := .counting) nextVersion_pos hswap
    exact counted_of_strides ((hcarried.trans hstaged).trans hswapped) hc

theorem writeRange_counted {offset : ℕ}
    (h : writeRange C E k tx mount path offset data = .ok (tx', size)) (hc : tx.db.Counted) :
    tx'.db.Counted := by
  simp only [writeRange] at h
  split at h
  · simp only [bind_eq_ok, pure_eq_ok, Prod.mk.injEq] at h
    obtain ⟨size', -, rfl, -⟩ := h
    exact hc
  · simp only [bind_eq_ok, pure_eq_ok, Prod.mk.injEq] at h
    obtain ⟨⟨ctx, node⟩, -, u, -, tx₁, hlead, tx₂, htrail, buf, -, tx₃, hstage,
      tx₄, hswap, rfl, -⟩ := h
    have hleading := carryLeading_strides (L := .counting) nextVersion_pos hlead
    have htrailing := carryTrailing_strides (L := .counting) nextVersion_pos htrail
    have hstaged := stageFrom_strides (L := .counting) nextVersion_pos hstage
    have hswapped := swap_strides (L := .counting) nextVersion_pos hswap
    exact counted_of_strides (((hleading.trans htrailing).trans hstaged).trans hswapped) hc

theorem truncate_counted (h : truncate C E k tx mount path size = .ok tx') (hc : tx.db.Counted) :
    tx'.db.Counted := by
  simp only [truncate, bind_eq_ok] at h
  obtain ⟨⟨ctx, node⟩, -, h⟩ := h
  split at h
  · obtain rfl := Except.ok.inj h
    exact hc
  simp only [bind_eq_ok] at h
  obtain ⟨u, -, h⟩ := h
  split at h
  · simp only [bind_eq_ok, pure_eq_ok] at h
    obtain ⟨tx₁, hshrink, tx₂, hswap, rfl⟩ := h
    have hshrunk := shrinkTo_strides (L := .counting) nextVersion_pos hshrink
    have hswapped := swap_strides (L := .counting) nextVersion_pos hswap
    exact counted_of_strides (hshrunk.trans hswapped) hc
  · simp only [bind_eq_ok, pure_eq_ok] at h
    obtain ⟨tx₁, hgrow, tx₂, hswap, rfl⟩ := h
    have hgrown := growTo_strides (L := .counting) nextVersion_pos hgrow
    have hswapped := swap_strides (L := .counting) nextVersion_pos hswap
    exact counted_of_strides (hgrown.trans hswapped) hc

/-! ### New nodes -/

theorem newNode_counted {type : NodeType} {name : String} {createdAt modifiedAt : Option Int}
    {metadata : Metadata}
    (h : newNode E tx ctx type name createdAt modifiedAt metadata = .ok (tx', n))
    (hc : tx.db.Counted) : tx'.db.Counted := by
  obtain ⟨-, db₁, hrow, rfl⟩ := newNode_ok h
  obtain ⟨-, -, rfl⟩ := Db.createNode_ok hrow
  exact hc.congr rfl

theorem Calm.counted (h : Calm tx tx') (hc : tx.db.Counted) : tx'.db.Counted :=
  hc.congr (h.off.versions (by simp))

theorem createContent_counted (h : tx.run E (.createContent n v size) = .ok tx')
    (hc : tx.db.Counted) : tx'.db.Counted := by
  obtain ⟨db', hexec, rfl⟩ := Tx.run_ok.mp h
  exact hc.congr ((Stmt.exec_agreeOff hexec).versions (by simp [Stmt.touches]))

theorem putInitialContent_counted (h : putInitialContent C E k tx ctx n data = .ok tx')
    (hc : tx.db.Counted) :
    tx'.db.Counted := by
  simp only [putInitialContent, bind_eq_ok] at h
  obtain ⟨tx₁, hcreate, h⟩ := h
  have hrow := createContent_counted hcreate hc
  split at h
  · obtain rfl := Except.ok.inj h
    exact hrow
  next hne =>
    exact stageChunks_counted one_ne_zero h hrow

theorem createLeaf_counted {type : NodeType}
    (h : createLeaf C E k tx mount path type data = .ok (tx', n)) (hc : tx.db.Counted) :
    tx'.db.Counted := by
  simp only [createLeaf, bind_eq_ok, pure_eq_ok, Prod.mk.injEq] at h
  obtain ⟨ctx, -, p, -, u, -, ⟨tx₁, node⟩, hnew, tx₂, hput, tx₃, hlink, rfl, -⟩ := h
  exact (linkChild_calm hlink).counted (putInitialContent_counted hput (newNode_counted hnew hc))

theorem createContainer_counted (h : createContainer E k tx mount path = .ok (tx', n))
    (hc : tx.db.Counted) :
    tx'.db.Counted := by
  simp only [createContainer, bind_eq_ok, pure_eq_ok, Prod.mk.injEq] at h
  obtain ⟨ctx, -, p, -, u, -, ⟨tx₁, node⟩, hnew, tx₂, hlink, rfl, -⟩ := h
  exact (linkChild_calm hlink).counted (newNode_counted hnew hc)

theorem copyContent_counted (h : copyContent E tx m n = .ok tx') (hc : tx.db.Counted) :
    tx'.db.Counted := by
  simp only [copyContent, bind_eq_ok] at h
  obtain ⟨tx₁, hcreate, h⟩ := h
  have hrow := createContent_counted hcreate hc
  split at h
  next hpos => exact counted_of_strides (Tx.run_strides (L := .counting) h
    (Nat.pos_iff_ne_zero.mp hpos)) hrow
  next =>
    obtain rfl := Except.ok.inj h
    exact hrow

theorem copyRow_counted {p : Parent} {t t' : Tx × IdMap NodeId} {r : SubtreeRow}
    (h : copyRow E ctx p t r = .ok t') (hc : t.1.db.Counted) : t'.1.db.Counted := by
  simp only [copyRow, bind_eq_ok, pure_eq_ok, orRaise_eq_ok] at h
  obtain ⟨info, -, parent, -, ⟨tx₁, new⟩, hnew, tx₂, hfill, tx₃, hlink, rfl⟩ := h
  have hborn := newNode_counted hnew hc
  rw [fillCopy] at hfill
  split at hfill
  · obtain rfl := Except.ok.inj hfill
    exact (linkChild_calm hlink).counted hborn
  · exact (linkChild_calm hlink).counted (copyContent_counted hfill hborn)

theorem copy_counted (h : copy E k tx mount src dst = .ok (tx', n)) (hc : tx.db.Counted) :
    tx'.db.Counted := by
  simp only [copy, bind_eq_ok, pure_eq_ok, Prod.mk.injEq] at h
  obtain ⟨ctx, -, found, -, p, -, u, -, t, hfold, root, -, rfl, -⟩ := h
  exact foldlM_invariant (P := fun t : Tx × IdMap NodeId => t.1.db.Counted)
    (fun _ _ _ _ ht hrow => copyRow_counted hrow ht) hfold hc

theorem pack_counted (h : pack C M E k tx mount path = .ok (tx', n)) (hc : tx.db.Counted) :
    tx'.db.Counted := by
  simp only [pack, bind_eq_ok, pure_eq_ok, orRaise_eq_ok, Prod.mk.injEq] at h
  obtain ⟨ctx, -, found, -, u, -, u₁, -, e, -, cont, -, nodes, -, blob, -, tx₁, hraze,
    ⟨tx₂, packed⟩, hnew, tx₃, hput, tx₄, hlink, rfl, -⟩ := h
  have hrazed := (run_calm hraze trivial).counted hc
  exact (linkChild_calm hlink).counted
    (putInitialContent_counted hput (newNode_counted hnew hrazed))

theorem unpackNode_counted {parent : NodeId} {t t' : Tx × List NodeId} {pn : PackNode}
    (h : unpackNode C E k ctx parent t pn = .ok t') (hc : t.1.db.Counted) : t'.1.db.Counted := by
  simp only [unpackNode, bind_eq_ok, pure_eq_ok] at h
  obtain ⟨type, -, target, -, metadata, -, u, -, ⟨tx₁, new⟩, hnew, tx₂, hfill, tx₃, hlink, tx₄,
    howner, tx₅,
    hxattrs, tx₆, hretention, rfl⟩ := h
  have hcalm : Calm tx₂ tx₆ := (linkChild_calm hlink).trans
    (((restoreOwner_calm howner).trans (restoreXattrs_calm hxattrs)).trans
      (restoreRetention_calm hretention))
  have hborn := newNode_counted hnew hc
  rw [fillUnpacked] at hfill
  split at hfill
  · obtain rfl := Except.ok.inj hfill
    exact hcalm.counted hborn
  · exact hcalm.counted (putInitialContent_counted hfill hborn)

theorem unpack_counted (h : unpack C M E k tx mount path = .ok tx') (hc : tx.db.Counted) :
    tx'.db.Counted := by
  simp only [unpack, bind_eq_ok, pure_eq_ok] at h
  obtain ⟨ctx, -, found, -, u, -, u₁, -, blob, -, nodes, -, e, -, tx₁, harch, t, hfold, rfl⟩ := h
  exact foldlM_invariant (P := fun t : Tx × List NodeId => t.1.db.Counted)
    (fun _ _ _ _ ht hrow => unpackNode_counted hrow ht) hfold ((run_calm harch trivial).counted hc)

/-! ### Every step -/

theorem request_counted {r : Request} {a : Reply} (h : r.run C M E k tx mount = .ok (tx', a))
    (hc : tx.db.Counted) :
    tx'.db.Counted := by
  cases r with
  | createContainer path =>
    obtain ⟨n, hr, -⟩ := asReply_ok h
    exact createContainer_counted hr hc
  | createEntry path data =>
    obtain ⟨n, hr, -⟩ := asReply_ok h
    exact createLeaf_counted hr hc
  | createSpecial path type data =>
    obtain ⟨n, hr, -⟩ := asReply_ok h
    simp only [Aloelite.createSpecial, bind_eq_ok] at hr
    obtain ⟨u, -, hr⟩ := hr
    exact createLeaf_counted hr hc
  | writeAll path data => exact writeAll_counted (noReply_ok h) hc
  | append path data =>
    obtain ⟨n, hr, -⟩ := asReply_ok h
    exact append_counted hr hc
  | writeRange path offset data =>
    obtain ⟨n, hr, -⟩ := asReply_ok h
    exact writeRange_counted hr hc
  | truncate path size => exact truncate_counted (noReply_ok h) hc
  | copy src dst =>
    obtain ⟨n, hr, -⟩ := asReply_ok h
    exact copy_counted hr hc
  | pack path =>
    obtain ⟨n, hr, -⟩ := asReply_ok h
    exact pack_counted hr hc
  | unpack path => exact unpack_counted (noReply_ok h) hc
  | _ =>
    refine (request_calm ?_ h).counted hc
    trivial

theorem openWrite_counted {mode : WriteMode} {lock : Option LockId} {d : Descriptor}
    (h : openWrite C E k tx mount path mode lock = .ok (tx', d)) (hc : tx.db.Counted) :
    tx'.db.Counted := by
  obtain ⟨ctx, tx₁, l, hm, htarget, hlock, -⟩ := openWrite_ok h
  have hopened : tx₁.db.Counted := by
    simp only [openTarget] at htarget
    split at htarget
    · simp only [bind_eq_ok, pure_eq_ok, Prod.mk.injEq] at htarget
      obtain ⟨u, -, rfl, -⟩ := htarget
      exact hc
    · split at htarget
      · cases htarget
      · exact createLeaf_counted htarget hc
    · cases htarget
  rcases writerLock_ok hlock with ⟨-, rfl, -⟩ | ⟨-, -, -, -, -, -, rfl⟩
  · exact hopened
  · exact hopened.congr rfl

/-- The version a descriptor claimed is not 0 either. -/
def OpenFile.Counts (f : OpenFile) : Prop := f.d.version ≠ some 0

theorem OpenFile.Counts.claims {f : OpenFile} (h : f.Counts) (db : Db) : f.d.claims db ≠ 0 := by
  rw [Descriptor.claims]
  cases hv : f.d.version with
  | none => exact nextVersion_pos
  | some v =>
    intro hzero
    exact h (hv.trans (congrArg some hzero))

theorem flushOneChunk_version (d : Descriptor) :
    (d.flushOneChunk C E k tx).1.version = some (d.claims tx.db) := by
  have hclaim : (d.claimVersion E tx).1.version = some (d.claims tx.db) := by
    simp only [Descriptor.claimVersion]
    split
    · rfl
    · split <;> rfl
  simp only [Descriptor.flushOneChunk]
  split <;> exact hclaim

/-- A step on a descriptor leaves its version, or is its first flush. -/
theorem fdStep_version {fd : FdId} {f f' : OpenFile} (hf : s.fds[fd]? = some f)
    (h : (fdStep C E s fd f op).1.fds[fd]? = some f') :
    f'.d.version = f.d.version ∨ f'.d.version = some (f.d.claims s.db) := by
  have hsame : s.fds[fd]? = some f' → f'.d.version = f.d.version ∨ f'.d.version =
      some (f.d.claims s.db) := by
    intro h
    obtain rfl := Option.some.inj (hf.symm.trans h)
    exact Or.inl rfl
  cases op with
  | fdFlush fd' =>
    simp only [fdStep] at h
    split at h
    · rw [fdTransact_self hf h]
      exact Or.inr (flushOneChunk_version f.d)
    · exact hsame h
  | fdRead fd' n =>
    simp only [fdStep] at h
    split at h
    · exact hsame h
    · split at h
      · exact hsame h
      next b d hread =>
        obtain ⟨-, -, pos, rfl⟩ := read_ok hread
        rw [setFd_self hf h]
        exact Or.inl rfl
  | fdWrite fd' data =>
    simp only [fdStep] at h
    split at h
    · exact hsame h
    · split at h
      · exact hsame h
      next d habs =>
        rw [setFd_self hf h]
        rcases (absorb_ok habs).2.2 with ⟨-, rfl⟩ | ⟨-, -, rfl⟩
        · exact Or.inl rfl
        · exact Or.inl rfl
  | fdSeek fd' offset whence =>
    simp only [fdStep] at h
    split at h
    · exact hsame h
    · split at h
      · exact hsame h
      next d hseek =>
        obtain ⟨pos, rfl⟩ := seek_ok hseek
        rw [setFd_self hf h]
        exact Or.inl rfl
  | fdClose fd' =>
    simp only [fdStep] at h
    split at h
    · exact hsame h
    · rw [fdTransact_self hf h]
      exact Or.inl rfl
  | fdAbort fd' =>
    simp only [fdStep] at h
    split at h
    · exact hsame h
    · rw [fdTransact_self hf h]
      exact Or.inl rfl
  | _ =>
    simp only [fdStep] at h
    split at h
    · exact hsame h
    · exact hsame h

theorem exec_counts (hall : ∀ f ∈ s.fds, f.Counts) : ∀ f ∈ (exec C M E s c op).1.fds, f.Counts := by
  intro f' hf'
  obtain ⟨fd, hfd⟩ := List.mem_iff_getElem?.mp hf'
  by_cases hop : op.fd? = some fd
  · rw [exec_onFd hop, onFd] at hfd
    split at hfd
    next => exact hall f' (List.mem_of_getElem? hfd)
    next f hf =>
      have hold : f.Counts := hall f (List.mem_of_getElem? hf)
      rcases fdStep_version hf hfd with heq | heq
      · exact fun hzero => hold (heq ▸ hzero)
      · rw [OpenFile.Counts, heq]
        exact fun hzero => hold.claims s.db (Option.some.inj hzero)
  · rcases exec_fds_others hop hfd with hold | ⟨-, hopen⟩
    · exact hall f' (List.mem_of_getElem? hold)
    · cases hopen with
      | read h =>
        simp only [openRead, bind_eq_ok, pure_eq_ok] at h
        obtain ⟨m, hm, found, hfound, u, -, rfl⟩ := h
        exact Option.some_ne_none 0 ∘ Eq.symm
      | write h =>
        obtain ⟨ctx, tx₁, l, -, -, -, -, -, -, -, -, -, hversion, -⟩ := openWrite_ok h
        intro hzero
        cases hversion.symm.trans hzero

theorem Op.license_counts (hop : ∀ m r, op ≠ .request m r)
    (hopen : ∀ m p mode l, op ≠ .openWrite m p mode l) :
    ∀ n, ¬ (op.license E s).host n := by
  intro n
  cases op with
  | request m r => exact absurd rfl (hop m r)
  | openWrite m p mode l => exact absurd rfl (hopen m p mode l)
  | fdFlush fd =>
    simp only [Op.license]
    split <;> exact id
  | fdClose fd =>
    simp only [Op.license]
    split <;> exact id
  | _ => exact id

theorem Op.license_writes (hop : ∀ m r, op ≠ .request m r)
    (hopen : ∀ m p mode l, op ≠ .openWrite m p mode l) (hall : ∀ f ∈ s.fds, f.Counts) :
    ∀ n v, (op.license E s).write n v → v ≠ 0 := by
  have hstream : ∀ fd n v, ((Op.fdFlush fd).license E s).write n v → v ≠ 0 := by
    intro fd n v hw
    simp only [Op.license] at hw
    split at hw
    next f hf =>
      rw [hw.2]
      exact (hall f (List.mem_of_getElem? hf)).claims s.db
    next => exact hw.elim
  intro n v hw
  cases op with
  | request m r => exact absurd rfl (hop m r)
  | openWrite m p mode l => exact absurd rfl (hopen m p mode l)
  | fdFlush fd => exact hstream fd n v hw
  | fdClose fd => exact hstream fd n v hw
  | _ => exact hw.elim

theorem exec_counted (hs : s.db.Sound) (hc : s.db.Counted) (hall : ∀ f ∈ s.fds, f.Counts) :
    (exec C M E s c op).1.db.Counted := by
  by_cases hreq : ∃ m r, op = .request m r
  · obtain ⟨mount, r, rfl⟩ := hreq
    refine transact_db (fun _ _ => rfl) hc ?_
    intro tx a h
    exact request_counted h hc
  by_cases hwriter : ∃ m p mode l, op = .openWrite m p mode l
  · obtain ⟨mount, path, mode, lock, rfl⟩ := hwriter
    refine transact_db (fun _ _ => rfl) hc ?_
    intro tx d h
    exact openWrite_counted h hc
  have heffect : Effect C E s op (exec C M E s c op).1.db := exec_effect hs.linked
  generalize (exec C M E s c op).1.db = db' at heffect
  have hop : ∀ m r, op ≠ .request m r := fun m r heq => hreq ⟨m, r, heq⟩
  have hopen : ∀ m p mode l, op ≠ .openWrite m p mode l :=
    fun m p mode l heq => hwriter ⟨m, p, mode, l, heq⟩
  cases heffect with
  | strides h => exact h.counted (Op.license_counts hop hopen) (Op.license_writes hop hopen hall) hc
  | founding h =>
    obtain ⟨-, -, -, -, -, hframe, -, -⟩ := createVolume_shape h
    exact hc.congr (hframe.versions (by simp))
  | prune h =>
    rw [prune_shape h hs]
    exact hc.congr rfl
  | pruneContent h =>
    rw [pruneContent_shape h]
    exact fun r hr => hc r (List.mem_filter.mp hr).1

/-- Versions count from one in every reachable file, whatever the interleaving. -/
theorem Reaches.counted {guard : Sys → Label → Prop} (h : Reaches C M guard s) : s.db.Counted := by
  have hall : (s.db.Sound ∧ s.db.Counted) ∧ ∀ f ∈ s.fds, f.Counts := by
    refine GuardedRuns.Run.invariant (P := fun s : Sys => (s.db.Sound ∧ s.db.Counted) ∧
      ∀ f ∈ s.fds, f.Counts)
      ?_ h ⟨⟨empty_sound, fun r hr => absurd hr List.not_mem_nil⟩, fun f hf =>
        absurd hf List.not_mem_nil⟩
    intro s l _ hs
    exact ⟨⟨step_sound hs.1.1, exec_counted hs.1.1 hs.1.2 hs.2⟩, exec_counts hs.2⟩
  exact hall.1.2

end Aloelite
