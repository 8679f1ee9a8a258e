import Aloelite.Strides
import Aloelite.OpsStructural
import Aloelite.OpsContent
import Aloelite.OpsTree
import Aloelite.OpsStreaming

/-! Every operation is a chain of strides under a license that is read off the
state it starts from. -/
namespace Aloelite

open Fallible KeyedRows ForestOrder Relation

variable {C : Crypto} {M : Msgpack} {E : Env} {k : Cipher} {L : License} {db : Db} {tx tx' : Tx}
  {mount : MountId} {path src dst name : String} {n : NodeId} {a : NodeId}

/-! ### Structural operations -/

theorem createContainer_strides (hl : tx.db.Linked)
    (h : createContainer E k tx mount path = .ok (tx', n)) :
    ∃ m, requireMount E k tx.db mount true = .ok m ∧
      Strides (.standard tx.db m.mountPoint) E.now tx.db tx'.db := by
  simp only [createContainer, bind_eq_ok, pure_eq_ok, Prod.mk.injEq] at h
  obtain ⟨m, hm, p, hp, u, -, ⟨tx₁, node⟩, hnew, tx₂, hlink, rfl, rfl⟩ := h
  refine ⟨m, hm, ?_⟩
  exact birth_strides hnew ReflTransGen.refl hlink (Or.inl (resolveParent_below hp))
    (resolveParent_exists (anchor_exists hl.anchor hm) hp)

theorem createLeaf_strides {type : NodeType} {data : Bytes} (hl : tx.db.Linked)
    (h : createLeaf C E k tx mount path type data = .ok (tx', n)) :
    ∃ m, requireMount E k tx.db mount true = .ok m ∧
      Strides (.standard tx.db m.mountPoint) E.now tx.db tx'.db := by
  simp only [createLeaf, bind_eq_ok, pure_eq_ok, Prod.mk.injEq] at h
  obtain ⟨m, hm, p, hp, u, -, ⟨tx₁, node⟩, hnew, tx₂, hput, tx₃, hlink, rfl, rfl⟩ := h
  refine ⟨m, hm, ?_⟩
  exact birth_strides hnew (putInitialContent_steps hput) hlink (Or.inl (resolveParent_below hp))
    (resolveParent_exists (anchor_exists hl.anchor hm) hp)

theorem createSpecial_strides {type : NodeType} {data : Bytes} (hl : tx.db.Linked)
    (h : createSpecial C E k tx mount path type data = .ok (tx', n)) :
    ∃ m, requireMount E k tx.db mount true = .ok m ∧
      Strides (.standard tx.db m.mountPoint) E.now tx.db tx'.db := by
  simp only [createSpecial, bind_eq_ok] at h
  obtain ⟨u, -, hleaf⟩ := h
  exact createLeaf_strides hl hleaf

/-- The placement a path walked hangs under a container of the mount. -/
theorem below_of_isPlacement {p : Parent} {e : EdgeRow} (hp : resolveParent db a path = .ok p)
    (he : Db.isPlacement p.container n p.name e = true) : db.Below a e.fromId := by
  simp only [Db.isPlacement, decide_eq_true_eq] at he
  rw [he.1]
  exact resolveParent_below hp

theorem rename_strides (h : rename E k tx mount path name = .ok tx') :
    ∃ m, requireMount E k tx.db mount true = .ok m ∧
      Strides (.standard tx.db m.mountPoint) E.now tx.db tx'.db := by
  simp only [rename, bind_eq_ok] at h
  obtain ⟨m, hm, u, -, p, hp, found, hfound, u', -, tx₁, hplace, hnode⟩ := h
  refine ⟨m, hm, ?_⟩
  have hfirst : (License.standard tx.db m.mountPoint).grants tx.db
      (.renamePlacement p.container found.node p.name name) := by
    intro e _ hplaced
    exact below_of_isPlacement hp hplaced
  exact (Tx.run_strides hplace hfirst).trans (Tx.run_strides hnode trivial)

/-- The placement of an existing node that `link` and `move` add. -/
def adoption (db : Db) (a : NodeId) (src dst : String) : Option (NodeId × NodeId) :=
  match resolve db a src, resolveParent db a dst with
  | .ok found, .ok p => some (p.container, found.node)
  | _, _ => none

theorem link_strides (h : link E k tx mount src dst = .ok tx') :
    ∃ m, requireMount E k tx.db mount true = .ok m ∧
      Strides ((License.standard tx.db m.mountPoint).adopting
        (adoption tx.db m.mountPoint src dst)) E.now tx.db tx'.db := by
  simp only [link, bind_eq_ok] at h
  obtain ⟨m, hm, found, hfound, u, -, u', -, p, hp, u₂, -, u₃, -, hlink⟩ := h
  refine ⟨m, hm, ?_⟩
  exact linkChild_strides hlink (by simp [License.adopting, adoption, hfound, hp])
    (Or.inl (resolveParent_below hp))

theorem move_strides (h : move E k tx mount src dst = .ok tx') :
    ∃ m, requireMount E k tx.db mount true = .ok m ∧
      Strides ((License.standard tx.db m.mountPoint).adopting
        (adoption tx.db m.mountPoint src dst)) E.now tx.db tx'.db := by
  simp only [move, bind_eq_ok] at h
  obtain ⟨m, hm, found, hfound, u, -, sp, hsp, p, hp, u₁, -, u₂, -, u₃, -, tx₁, harch, tx₂, hlink,
    hname⟩ := h
  refine ⟨m, hm, ?_⟩
  have hadopt : ((License.standard tx.db m.mountPoint).adopting
      (adoption tx.db m.mountPoint src dst)).adopt = some (p.container, found.node) := by
    simp [License.adopting, adoption, hfound, hp]
  have hfirst : ((License.standard tx.db m.mountPoint).adopting
      (adoption tx.db m.mountPoint src dst)).grants tx.db
      (.archivePlacement sp.container found.node sp.name) := by
    intro e _ hplaced
    exact below_of_isPlacement hsp hplaced
  have harchive := Tx.run_strides harch hfirst
  have hplace := linkChild_strides hlink hadopt (Or.inl (resolveParent_below hp))
  split at hname
  · exact (harchive.trans hplace).trans (Tx.run_strides hname trivial)
  · obtain rfl := Except.ok.inj hname
    exact harchive.trans hplace

/-! ### Annotations -/

theorem setOwner_strides {uid gid mode : Option Int}
    (h : setOwner E k tx mount path uid gid mode = .ok tx') :
    ∃ m, requireMount E k tx.db mount true = .ok m ∧
      ∀ L : License, Strides L E.now tx.db tx'.db := by
  simp only [setOwner, bind_eq_ok] at h
  obtain ⟨m, hm, found, -, hrun⟩ := h
  exact ⟨m, hm, fun _ => Tx.run_strides hrun trivial⟩

theorem setAtime_strides {ts : Int} (h : setAtime E k tx mount n ts = .ok tx') :
    ∃ m, requireMount E k tx.db mount true = .ok m ∧
      ∀ L : License, Strides L E.now tx.db tx'.db := by
  simp only [setAtime, bind_eq_ok] at h
  obtain ⟨m, hm, hrun⟩ := h
  exact ⟨m, hm, fun _ => Tx.run_strides hrun trivial⟩

theorem setMtime_strides {ts : Int} (h : setMtime E k tx mount n ts = .ok tx') :
    ∃ m, requireMount E k tx.db mount true = .ok m ∧
      ∀ L : License, Strides L E.now tx.db tx'.db := by
  simp only [setMtime, bind_eq_ok] at h
  obtain ⟨m, hm, hrun⟩ := h
  exact ⟨m, hm, fun _ => Tx.run_strides hrun trivial⟩

theorem setXattr_strides {value : Bytes} (h : setXattr E k tx mount path name value = .ok tx') :
    ∃ m, requireMount E k tx.db mount true = .ok m ∧
      ∀ L : License, Strides L E.now tx.db tx'.db := by
  simp only [setXattr, bind_eq_ok] at h
  obtain ⟨m, hm, found, -, hrun⟩ := h
  exact ⟨m, hm, fun _ => Tx.run_strides hrun trivial⟩

theorem removeXattr_strides {existed : Bool}
    (h : removeXattr E k tx mount path name = .ok (tx', existed)) :
    ∃ m, requireMount E k tx.db mount true = .ok m ∧
      ∀ L : License, Strides L E.now tx.db tx'.db := by
  simp only [removeXattr, bind_eq_ok, pure_eq_ok, Prod.mk.injEq] at h
  obtain ⟨m, hm, found, -, tx₁, hrun, rfl, -⟩ := h
  exact ⟨m, hm, fun _ => Tx.run_strides hrun trivial⟩

theorem setMetadata_strides {metadata : Metadata}
    (h : setMetadata E k tx mount path metadata = .ok tx') :
    ∃ m, requireMount E k tx.db mount true = .ok m ∧
      ∀ L : License, Strides L E.now tx.db tx'.db := by
  simp only [setMetadata, bind_eq_ok] at h
  obtain ⟨m, hm, found, -, u, -, hrun⟩ := h
  exact ⟨m, hm, fun _ => Tx.run_strides hrun trivial⟩

theorem setRetention_strides {keep : Option Int}
    (h : setRetention E k tx mount path keep = .ok tx') :
    ∃ m, requireMount E k tx.db mount true = .ok m ∧
      ∀ L : License, Strides L E.now tx.db tx'.db := by
  simp only [setRetention, bind_eq_ok] at h
  obtain ⟨m, hm, found, -, u, -, hrun⟩ := h
  exact ⟨m, hm, fun _ => Tx.run_strides hrun trivial⟩

/-! ### Content -/

theorem openContent_ok {m : MountCtx} (h : openContent E k db mount path = .ok (m, n)) :
    requireMount E k db mount true = .ok m ∧ ∃ type, type ≠ .container ∧
      resolve db m.mountPoint path = .ok ⟨n, type⟩ := by
  simp only [openContent, bind_eq_ok, pure_eq_ok, refuse_eq_ok, Prod.mk.injEq] at h
  obtain ⟨m', hm, found, hfound, u, htype, u', -, rfl, rfl⟩ := h
  exact ⟨hm, found.type, by simpa using htype, hfound⟩

theorem carryLeading_strides {version srcVersion count : ℕ} (hw : L.write n version)
    (h : carryLeading E tx n version srcVersion count = .ok tx') :
    Strides L E.now tx.db tx'.db := by
  rw [carryLeading] at h
  split at h
  · exact Tx.run_strides h hw
  · obtain rfl := Except.ok.inj h
    exact ReflTransGen.refl

theorem carryTrailing_strides {version srcVersion hi : ℕ} {srcLast : Int} (hw : L.write n version)
    (h : carryTrailing E tx n version srcVersion hi srcLast = .ok tx') :
    Strides L E.now tx.db tx'.db := by
  rw [carryTrailing] at h
  split at h
  · exact Tx.run_strides h hw
  · obtain rfl := Except.ok.inj h
    exact ReflTransGen.refl

theorem stageFrom_strides {version index : ℕ} {chunks : List Bytes} (hw : L.write n version)
    (h : tx.stageFrom C E k n version index chunks = .ok tx') : Strides L E.now tx.db tx'.db :=
  (Tx.stageFrom_steps h).strides (Stages.granted hw)

theorem swap_strides {version size : ℕ} (hw : L.write n version)
    (h : tx.run E (.updateContent n version size) = .ok tx') : Strides L E.now tx.db tx'.db :=
  Tx.run_strides h hw

theorem writeAll_strides {data : Bytes} (h : writeAll C E k tx mount path data = .ok tx') :
    ∃ m, requireMount E k tx.db mount true = .ok m ∧
      Strides (.standard tx.db m.mountPoint) E.now tx.db tx'.db := by
  simp only [writeAll, bind_eq_ok, pure_eq_ok] at h
  obtain ⟨⟨m, node⟩, hopen, tx₁, hstage, tx₂, hswap, rfl⟩ := h
  refine ⟨m, (openContent_ok hopen).1, ?_⟩
  have hstaged := (Tx.stageChunks_steps hstage).strides
    (Stages.granted (L := License.standard tx.db m.mountPoint) rfl)
  have hswapped := swap_strides (L := .standard tx.db m.mountPoint) rfl hswap
  exact hstaged.trans hswapped

theorem currentSize_ok {size : ℕ} (h : currentSize E k db mount path = .ok size) :
    ∃ m, requireMount E k db mount true = .ok m := by
  simp only [currentSize, bind_eq_ok] at h
  obtain ⟨m, hm, -⟩ := h
  exact ⟨m, hm⟩

theorem append_strides {data : Bytes} {size : ℕ}
    (h : append C E k tx mount path data = .ok (tx', size)) :
    ∃ m, requireMount E k tx.db mount true = .ok m ∧
      Strides (.standard tx.db m.mountPoint) E.now tx.db tx'.db := by
  simp only [append] at h
  split at h
  · simp only [bind_eq_ok, pure_eq_ok, Prod.mk.injEq] at h
    obtain ⟨size', hsize, rfl, -⟩ := h
    obtain ⟨m, hm⟩ := currentSize_ok hsize
    exact ⟨m, hm, ReflTransGen.refl⟩
  · simp only [bind_eq_ok, pure_eq_ok, Prod.mk.injEq] at h
    obtain ⟨⟨m, node⟩, hopen, u, -, tx₁, hcarry, tail, -, tx₂, hstage, tx₃, hswap, rfl, -⟩ := h
    refine ⟨m, (openContent_ok hopen).1, ?_⟩
    have hcarried := carryLeading_strides (L := .standard tx.db m.mountPoint) rfl hcarry
    have hstaged := stageFrom_strides (L := .standard tx.db m.mountPoint) rfl hstage
    have hswapped := swap_strides (L := .standard tx.db m.mountPoint) rfl hswap
    exact (hcarried.trans hstaged).trans hswapped

theorem writeRange_strides {offset : ℕ} {data : Bytes} {size : ℕ}
    (h : writeRange C E k tx mount path offset data = .ok (tx', size)) :
    ∃ m, requireMount E k tx.db mount true = .ok m ∧
      Strides (.standard tx.db m.mountPoint) E.now tx.db tx'.db := by
  simp only [writeRange] at h
  split at h
  · simp only [bind_eq_ok, pure_eq_ok, Prod.mk.injEq] at h
    obtain ⟨size', hsize, rfl, -⟩ := h
    obtain ⟨m, hm⟩ := currentSize_ok hsize
    exact ⟨m, hm, ReflTransGen.refl⟩
  · simp only [bind_eq_ok, pure_eq_ok, Prod.mk.injEq] at h
    obtain ⟨⟨m, node⟩, hopen, u, -, tx₁, hlead, tx₂, htrail, buf, -, tx₃, hstage,
      tx₄, hswap, rfl, -⟩ := h
    refine ⟨m, (openContent_ok hopen).1, ?_⟩
    have hleading := carryLeading_strides (L := .standard tx.db m.mountPoint) rfl hlead
    have htrailing := carryTrailing_strides (L := .standard tx.db m.mountPoint) rfl htrail
    have hstaged := stageFrom_strides (L := .standard tx.db m.mountPoint) rfl hstage
    have hswapped := swap_strides (L := .standard tx.db m.mountPoint) rfl hswap
    exact ((hleading.trans htrailing).trans hstaged).trans hswapped

theorem shrinkTo_strides {version srcVersion cs size : ℕ} (hw : L.write n version)
    (h : shrinkTo C E k tx n version srcVersion cs size = .ok tx') :
    Strides L E.now tx.db tx'.db := by
  simp only [shrinkTo, bind_eq_ok] at h
  obtain ⟨tx₁, hcarry, h⟩ := h
  have hcarried := carryLeading_strides (L := L) hw hcarry
  split at h
  · simp only [bind_eq_ok] at h
    obtain ⟨rows, -, chunk, -, hstage⟩ := h
    exact hcarried.trans ((Tx.stageChunk_steps hstage).strides (Stages.granted hw))
  · obtain rfl := Except.ok.inj h
    exact hcarried

theorem growTo_strides {version srcVersion cs cur size : ℕ} (hw : L.write n version)
    (h : growTo C E k tx n version srcVersion cs cur size = .ok tx') :
    Strides L E.now tx.db tx'.db := by
  simp only [growTo, bind_eq_ok] at h
  obtain ⟨tx₁, hcarry, tail, -, hstage⟩ := h
  exact (carryLeading_strides (L := L) hw hcarry).trans (stageFrom_strides hw hstage)

theorem truncate_strides {size : ℕ} (h : truncate C E k tx mount path size = .ok tx') :
    ∃ m, requireMount E k tx.db mount true = .ok m ∧
      Strides (.standard tx.db m.mountPoint) E.now tx.db tx'.db := by
  simp only [truncate, bind_eq_ok] at h
  obtain ⟨⟨m, node⟩, hopen, h⟩ := h
  refine ⟨m, (openContent_ok hopen).1, ?_⟩
  split at h
  · obtain rfl := Except.ok.inj h
    exact ReflTransGen.refl
  simp only [bind_eq_ok] at h
  obtain ⟨u, -, h⟩ := h
  split at h
  · simp only [bind_eq_ok, pure_eq_ok] at h
    obtain ⟨tx₁, hshrink, tx₂, hswap, rfl⟩ := h
    have hstaged := shrinkTo_strides (L := .standard tx.db m.mountPoint) rfl hshrink
    have hswapped := swap_strides (L := .standard tx.db m.mountPoint) rfl hswap
    exact hstaged.trans hswapped
  · simp only [bind_eq_ok, pure_eq_ok] at h
    obtain ⟨tx₁, hgrow, tx₂, hswap, rfl⟩ := h
    have hstaged := growTo_strides (L := .standard tx.db m.mountPoint) rfl hgrow
    have hswapped := swap_strides (L := .standard tx.db m.mountPoint) rfl hswap
    exact hstaged.trans hswapped

/-! ### Trees -/

theorem remove_strides (h : remove E k tx mount path = .ok tx') :
    ∃ m, requireMount E k tx.db mount true = .ok m ∧
      Strides (.standard tx.db m.mountPoint) E.now tx.db tx'.db := by
  simp only [remove, bind_eq_ok] at h
  obtain ⟨m, hm, found, -, u, -, u₁, -, p, hp, u₂, -, hrun⟩ := h
  refine ⟨m, hm, Tx.run_strides hrun ?_⟩
  intro e _ hplaced
  exact below_of_isPlacement hp hplaced

/-- The placements `archive_subtree` takes at the target of a path. -/
def razed (db : Db) (a : NodeId) (path : String) (e : EdgeRow) : Prop :=
  ∃ found, resolve db a path = .ok found ∧ e.toId ∈ db.subtreeIds found.node

/-- The placement `get_active_parent` picks at the target of a path. -/
def pickedPlacement (db : Db) (a : NodeId) (path : String) (e : EdgeRow) : Prop :=
  ∃ found, resolve db a path = .ok found ∧ db.getActiveParent found.node = some e

theorem removeRecursive_strides (h : removeRecursive E k tx mount path = .ok tx') :
    ∃ m, requireMount E k tx.db mount true = .ok m ∧
      Strides ((License.standard tx.db m.mountPoint).detaching (razed tx.db m.mountPoint path))
        E.now tx.db tx'.db := by
  simp only [removeRecursive, bind_eq_ok] at h
  obtain ⟨m, hm, found, hfound, u, -, hrun⟩ := h
  refine ⟨m, hm, Tx.run_strides hrun ?_⟩
  intro e _ he
  exact Or.inr ⟨found, hfound, he⟩

theorem copyContent_steps {s d : NodeId} (h : copyContent E tx s d = .ok tx') :
    Steps (Fills d) E.now tx.db tx'.db := by
  simp only [copyContent, bind_eq_ok] at h
  obtain ⟨tx₁, hcreate, h⟩ := h
  have hfirst := Tx.run_steps (P := Fills d) hcreate rfl
  split at h
  · have hrest : Steps (Fills d) E.now (tx₁.gives d (tx₁.committed s)).db tx'.db :=
      Tx.run_steps h rfl
    exact hfirst.trans hrest
  · obtain rfl := Except.ok.inj h
    exact hfirst

/-- What the loops of `copy` and `unpack` keep: the nodes made so far exist and
may receive placements. -/
def Hosts (L : License) (tx : Tx) (made : List NodeId) : Prop :=
  ∀ n ∈ made, L.host n ∧ (tx.db.node? n).isSome

theorem Hosts.persists {made : List NodeId} (h : Hosts L tx made)
    (hs : Strides L E.now tx.db tx'.db) : Hosts L tx' made := by
  intro n hn
  exact ⟨(h n hn).1, node?_isSome_persists hs.identities (h n hn).2⟩

/-- A new node is one the starting state does not have. -/
theorem newNode_fresh {m : MountCtx} {type : NodeType} {createdAt modifiedAt : Option Int}
    {metadata : Metadata} (hs : Strides L E.now db tx.db)
    (h : newNode E tx m type name createdAt modifiedAt metadata = .ok (tx', n)) :
    db.node? n = none := by
  obtain ⟨-, db₁, hrow, -⟩ := newNode_ok h
  obtain ⟨hnone, -, -⟩ := Db.createNode_ok hrow
  by_contra hsome
  have hpersist := node?_isSome_persists hs.identities (Option.isSome_iff_ne_none.mpr hsome)
  rw [hnone] at hpersist
  exact absurd hpersist (by simp)

theorem IdMap.find_mem {ids : IdMap NodeId} {old new : NodeId} (h : ids.find old = .ok new) :
    new ∈ ids.map Prod.snd := by
  simp only [IdMap.find, orRaise_eq_ok, Option.map_eq_some_iff] at h
  obtain ⟨p, hp, rfl⟩ := h
  exact List.mem_map_of_mem (List.mem_of_find?_eq_some hp)

theorem fillCopy_steps {type : NodeType} {s d : NodeId} (h : fillCopy E tx type s d = .ok tx') :
    Steps (Fills d) E.now tx.db tx'.db := by
  rw [fillCopy] at h
  split at h
  · obtain rfl := Except.ok.inj h
    exact ReflTransGen.refl
  · exact copyContent_steps h

theorem copyParent_mem {p : Parent} {ids : IdMap NodeId} {r : SubtreeRow}
    (h : copyParent p ids r = .ok n) : n ∈ p.container :: ids.map Prod.snd := by
  rw [copyParent] at h
  split at h
  · obtain rfl := Except.ok.inj h
    exact List.mem_cons_self
  · exact List.mem_cons_of_mem _ (IdMap.find_mem h)

theorem linkChild_exists {m : MountCtx} {parent child : NodeId} {name : Option String}
    (h : linkChild E tx m parent child name = .ok tx') : (tx'.db.node? child).isSome := by
  obtain ⟨db₁, hedge, rfl⟩ := linkChild_ok h
  obtain ⟨src, dst, -, hchild, -, -, -, -, -, rfl⟩ := Db.createEdge_ok hedge
  exact Option.isSome_iff_exists.mpr ⟨dst, hchild⟩

/-- One round of `copy` is one birth, under the destination or a node made
before. -/
theorem copyRow_strides {m : MountCtx} {p : Parent} {s t : Tx × IdMap NodeId} {r : SubtreeRow}
    (hfresh : ∀ n, db.node? n = none → L.host n) (hs : Strides L E.now db s.1.db)
    (hmade : Hosts L s.1 (p.container :: s.2.map Prod.snd)) (h : copyRow E m p s r = .ok t) :
    Strides L E.now db t.1.db ∧ Hosts L t.1 (p.container :: t.2.map Prod.snd) := by
  simp only [copyRow, bind_eq_ok, pure_eq_ok] at h
  obtain ⟨info, -, parent, hparent, ⟨tx₁, new⟩, hnew, tx₂, hfill, tx₃, hlink, rfl⟩ := h
  obtain ⟨hhost, hexists⟩ := hmade parent (copyParent_mem hparent)
  have hstride := birth_strides (L := L) hnew (fillCopy_steps hfill) hlink hhost hexists
  have hold := hmade.persists hstride
  refine ⟨hs.trans hstride, ?_⟩
  intro n hn
  simp only [List.map_cons, List.mem_cons] at hn
  rcases hn with rfl | rfl | hn
  · exact hold _ List.mem_cons_self
  · exact ⟨hfresh _ (newNode_fresh hs hnew), linkChild_exists hlink⟩
  · exact hold _ (List.mem_cons_of_mem _ hn)

theorem copy_strides (hl : tx.db.Linked) (h : copy E k tx mount src dst = .ok (tx', n)) :
    ∃ m, requireMount E k tx.db mount true = .ok m ∧
      Strides (.standard tx.db m.mountPoint) E.now tx.db tx'.db := by
  simp only [copy, bind_eq_ok, pure_eq_ok, Prod.mk.injEq] at h
  obtain ⟨m, hm, found, -, p, hp, u, -, s, hfold, root, -, rfl, -⟩ := h
  refine ⟨m, hm, ?_⟩
  have hdst : (License.standard tx.db m.mountPoint).host p.container :=
    Or.inl (resolveParent_below hp)
  have hexists := resolveParent_exists (anchor_exists hl.anchor hm) hp
  have hinv := foldlM_invariant
    (P := fun s : Tx × IdMap NodeId => Strides (.standard tx.db m.mountPoint) E.now tx.db s.1.db ∧
      Hosts (.standard tx.db m.mountPoint) s.1 (p.container :: s.2.map Prod.snd))
    (fun s r t _ hs hrow => copyRow_strides (fun n hn => Or.inr hn) hs.1 hs.2 hrow) hfold
    ⟨ReflTransGen.refl, by simp [Hosts, hdst, hexists]⟩
  exact hinv.1

/-- What `pack` and `unpack` are entitled to beyond the usual: the placement that
`get_active_parent` picks decides where the result goes. -/
def licensePack (db : Db) (a : NodeId) (path : String) : License :=
  ((License.standard db a).detaching (razed db a path)).hosting
    (fun f => ∃ e, pickedPlacement db a path e ∧ e.fromId = f)

def licenseUnpack (db : Db) (a : NodeId) (path : String) : License :=
  ((License.standard db a).detaching
    (fun e => ∃ e', pickedPlacement db a path e' ∧ e'.edgeId = e.edgeId)).hosting
    (fun f => ∃ e, pickedPlacement db a path e ∧ e.fromId = f)

theorem pickedPlacement_parent {e : EdgeRow} (hl : db.Linked) (h : db.getActiveParent n = some e) :
    (db.node? e.fromId).isSome := by
  have hmem : e ∈ db.activeEdges := List.mem_of_find?_eq_some h
  exact Db.node?_isSome_of_type (hl.parent e (Db.mem_activeEdges.mp hmem).1)

theorem pack_strides (hl : tx.db.Linked) (h : pack C M E k tx mount path = .ok (tx', n)) :
    ∃ m, requireMount E k tx.db mount true = .ok m ∧
      Strides (licensePack tx.db m.mountPoint path) E.now tx.db tx'.db := by
  simp only [pack, bind_eq_ok, pure_eq_ok, orRaise_eq_ok, Prod.mk.injEq] at h
  obtain ⟨m, hm, found, hfound, u, -, u₁, -, e, he, cont, -, nodes, -, blob, -, tx₁, hraze,
    ⟨tx₂, packed⟩, hnew, tx₃, hput, tx₄, hlink, rfl, -⟩ := h
  refine ⟨m, hm, ?_⟩
  have hrazed : Strides (licensePack tx.db m.mountPoint path) E.now tx.db tx₁.db := by
    refine Tx.run_strides hraze ?_
    intro e' _ he'
    exact Or.inr ⟨found, hfound, he'⟩
  have hhost : (licensePack tx.db m.mountPoint path).host e.fromId :=
    Or.inr ⟨e, ⟨found, hfound, he⟩, rfl⟩
  have hparent := node?_isSome_persists hrazed.identities (pickedPlacement_parent hl he)
  exact hrazed.trans (birth_strides hnew (putInitialContent_steps hput) hlink hhost hparent)

theorem fillUnpacked_steps {m : MountCtx} {type : NodeType} {d : Option Bytes}
    (h : fillUnpacked C E k tx m type n d = .ok tx') : Steps (Fills n) E.now tx.db tx'.db := by
  rw [fillUnpacked] at h
  split at h
  · obtain rfl := Except.ok.inj h
    exact ReflTransGen.refl
  · exact putInitialContent_steps h

theorem restoreOwner_strides {pn : PackNode} (h : restoreOwner E tx pn n = .ok tx') :
    Strides L E.now tx.db tx'.db := by
  rw [restoreOwner] at h
  split at h
  · obtain ⟨-, -, h⟩ := bind_eq_ok.mp h
    exact Tx.run_strides h trivial
  · obtain rfl := Except.ok.inj h
    exact ReflTransGen.refl

theorem restoreXattrs_strides {pn : PackNode} (h : restoreXattrs E tx pn n = .ok tx') :
    Strides L E.now tx.db tx'.db := by
  refine foldlM_invariant (P := fun t : Tx => Strides L E.now tx.db t.db) ?_ h ReflTransGen.refl
  intro s kv t _ hs hrun
  exact hs.trans (Tx.run_strides hrun trivial)

theorem restoreRetention_strides {pn : PackNode} {type : NodeType}
    (h : restoreRetention E tx pn type n = .ok tx') : Strides L E.now tx.db tx'.db := by
  rw [restoreRetention] at h
  split at h
  · obtain ⟨-, -, h⟩ := bind_eq_ok.mp h
    exact Tx.run_strides h trivial
  · obtain rfl := Except.ok.inj h
    exact ReflTransGen.refl

theorem nodeAt_mem {ids : List NodeId} {p : Int} (h : nodeAt ids p = .ok n) : n ∈ ids := by
  simp only [nodeAt, orRaise_eq_ok] at h
  split at h
  · exact List.mem_of_getElem? h
  · cases h

theorem unpackTarget_mem {parent : NodeId} {ids : List NodeId} {p : Int}
    (h : unpackTarget parent ids p = .ok n) : n ∈ parent :: ids := by
  rw [unpackTarget] at h
  split at h
  · obtain rfl := Except.ok.inj h
    exact List.mem_cons_self
  · exact List.mem_cons_of_mem _ (nodeAt_mem h)

theorem unpackNode_strides {m : MountCtx} {parent : NodeId} {s t : Tx × List NodeId} {pn : PackNode}
    (hfresh : ∀ n, db.node? n = none → L.host n) (hs : Strides L E.now db s.1.db)
    (hmade : Hosts L s.1 (parent :: s.2)) (h : unpackNode C E k m parent s pn = .ok t) :
    Strides L E.now db t.1.db ∧ Hosts L t.1 (parent :: t.2) := by
  simp only [unpackNode, bind_eq_ok, pure_eq_ok] at h
  obtain ⟨type, -, target, htarget, metadata, -, u, -, ⟨tx₁, new⟩, hnew, tx₂, hfill, tx₃, hlink,
    tx₄,
    howner, tx₅, hxattrs, tx₆, hretention, rfl⟩ := h
  obtain ⟨hhost, hexists⟩ := hmade target (unpackTarget_mem htarget)
  have hbirth := birth_strides (L := L) hnew (fillUnpacked_steps hfill) hlink hhost hexists
  have hextras : Strides L E.now tx₃.db tx₆.db :=
    ((restoreOwner_strides howner).trans (restoreXattrs_strides hxattrs)).trans
      (restoreRetention_strides hretention)
  have hold := hmade.persists (hbirth.trans hextras)
  refine ⟨(hs.trans hbirth).trans hextras, ?_⟩
  intro n hn
  simp only [List.mem_cons, List.mem_append, List.not_mem_nil, or_false] at hn
  rcases hn with rfl | hn | rfl
  · exact hold _ List.mem_cons_self
  · exact hold _ (List.mem_cons_of_mem _ hn)
  · exact ⟨hfresh _ (newNode_fresh hs hnew),
      node?_isSome_persists hextras.identities (linkChild_exists hlink)⟩

/-- `unpack` archives the placement it picks and then only makes nodes under its
parent. -/
theorem unpack_ok (hl : tx.db.Linked) (h : unpack C M E k tx mount path = .ok tx') :
    ∃ m found e tx₁, requireMount E k tx.db mount true = .ok m ∧
      resolve tx.db m.mountPoint path = .ok found ∧ tx.db.getActiveParent found.node = some e ∧
      tx.run E (.archiveEdge e.edgeId) = .ok tx₁ ∧
      Strides (licenseUnpack tx.db m.mountPoint path) E.now tx.db tx₁.db ∧
      Strides (licenseUnpack tx.db m.mountPoint path) E.now tx₁.db tx'.db := by
  simp only [unpack, bind_eq_ok, pure_eq_ok, orRaise_eq_ok] at h
  obtain ⟨m, hm, found, hfound, u, -, u₁, -, blob, -, nodes, -, e, he, tx₁, harch, s, hfold, rfl⟩ :=
    h
  refine ⟨m, found, e, tx₁, hm, hfound, he, harch, ?_⟩
  have hpicked : pickedPlacement tx.db m.mountPoint path e := ⟨found, hfound, he⟩
  have harchived : Strides (licenseUnpack tx.db m.mountPoint path) E.now tx.db tx₁.db := by
    refine Tx.run_strides harch ?_
    intro e' _ he'
    exact Or.inr ⟨e, hpicked, he'.symm⟩
  have hhost : (licenseUnpack tx.db m.mountPoint path).host e.fromId := Or.inr ⟨e, hpicked, rfl⟩
  have hexists := node?_isSome_persists harchived.identities (pickedPlacement_parent hl he)
  -- a node made in the loop is new to the first file, so it may host in its turn
  have hfresh : ∀ n, tx₁.db.node? n = none → (licenseUnpack tx.db m.mountPoint path).host n := by
    intro n hn
    obtain ⟨db₁, hexec, rfl⟩ := Tx.run_ok.mp harch
    obtain rfl := Except.ok.inj hexec
    exact Or.inl (Or.inr hn)
  have hinv := foldlM_invariant
    (P := fun s : Tx × List NodeId =>
      Strides (licenseUnpack tx.db m.mountPoint path) E.now tx₁.db s.1.db ∧
      Hosts (licenseUnpack tx.db m.mountPoint path) s.1 (e.fromId :: s.2))
    (fun s pn t _ hs hrow => unpackNode_strides hfresh hs.1 hs.2 hrow) hfold
    ⟨ReflTransGen.refl, by simp [Hosts, hhost, hexists]⟩
  exact ⟨harchived, hinv.1⟩

theorem unpack_strides (hl : tx.db.Linked) (h : unpack C M E k tx mount path = .ok tx') :
    ∃ m, requireMount E k tx.db mount true = .ok m ∧
      Strides (licenseUnpack tx.db m.mountPoint path) E.now tx.db tx'.db := by
  obtain ⟨m, found, e, tx₁, hm, -, -, -, harchived, hmade⟩ := unpack_ok hl h
  exact ⟨m, hm, harchived.trans hmade⟩

end Aloelite
