import Aloelite.DownloadBounds

/-! The loop of `get -r`: each turn handles the rows of one container, and what was handled stays
so. -/
namespace Aloelite

open Fallible KeyedRows

variable {C : Crypto} {M : Msgpack} {E : Env} {db : Db} {s : Sys} {mount : MountId}
  {ctx : MountCtx} {own : VolumeId → Cipher} {accepts : List LocalAct → LocalAct → Bool}
  {c n : NodeId} {t : NodeType} {chain : List String} {name : String} {g : Download}

variable {src : String}

/-! ### The bytes of an entry -/

/-- A reader at its place in an entry of its volume. -/
structure Reads (s : Sys) (V : VolumeId) (r : ContentRow) (d : Descriptor) : Prop where
  content : s.db.content? d.node = some r
  home : s.db.home? d.node = some V
  chunkSize : d.cs = chunkSizeOf s.db V
  reader : d.writable = false
  running : d.closed = false

/-- Under the cipher of its volume a read gives what the entry was last given. -/
theorem Reads.read {V : VolumeId} {r : ContentRow} {d : Descriptor}
    (h : Reaches C M (Careful C M own) s) (hd : Reads s V r d) (m : ℕ) :
    r.size = (s.committed d.node).length ∧
      d.read C (own V) s.db (some m) =
        if min r.size (d.pos + m) ≤ d.pos then .ok ([], d)
        else .ok (((s.committed d.node).take (min r.size (d.pos + m))).drop d.pos,
          { d with pos := min r.size (d.pos + m) }) := by
  obtain ⟨V', hV', hstored⟩ := h.orderly.writers.stored.1.content d.node r hd.content
  obtain rfl : V = V' := Option.some.inj (hd.home.symm.trans hV')
  have hkept : Kept (Reading.exact (C := C) own) V s.db d.node r.version r.size
      (s.committed d.node) := hstored
  refine ⟨hkept.size, ?_⟩
  have hmeta : readContentMeta s.db d.node = some (r.version, r.size) := by
    rw [readContentMeta, hd.content]
    rfl
  simp only [Descriptor.read, hd.running, hd.reader, hmeta, Option.getD_some]
  change (if min r.size (d.pos + m) ≤ d.pos then _ else _) = _
  split
  · rfl
  next hstop =>
    have hdata : s.committed d.node ≠ [] := by
      intro hnil
      have hsize := hkept.size
      rw [hnil, List.length_nil] at hsize
      omega
    have hpos : 0 < d.cs := by
      rw [hd.chunkSize]
      exact hkept.chunked.resolve_right hdata
    have hmap : (s.committed d.node).map (Reading.exact (C := C) own).glance = s.committed d.node :=
      List.map_id _
    have hholds := hkept.holds
    rw [hmap] at hholds
    have hrange := hholds.readChunkRange_exact (d.pos / d.cs) ((min r.size (d.pos + m) - 1) / d.cs)
    obtain ⟨hlo, hhi⟩ := covering hpos (not_le.mp hstop)
    have hzero : d.cs ≠ 0 := hpos.ne'
    have hwindow : (((Pieces.pieces d.cs (s.committed d.node)).take
        ((min r.size (d.pos + m) - 1) / d.cs + 1)).drop (d.pos / d.cs)).flatten =
        ((s.committed d.node).take (((min r.size (d.pos + m) - 1) / d.cs + 1) * d.cs)).drop
          (d.pos / d.cs * d.cs) := Pieces.flatten_range hpos _ _
    rw [← hd.chunkSize] at hrange
    have hwhole := @window_of_range _ (s.committed d.node) _ _ _ _ hlo hhi
    rw [← hwindow] at hwhole
    rw [hrange, ok_bind, ← hwhole]
    simp only [hzero, decide_false, refuse]
    rfl

theorem Reads.at {V : VolumeId} {r : ContentRow} {d : Descriptor} (hd : Reads s V r d) (pos : ℕ) :
    Reads s V r { d with pos := pos } :=
  ⟨hd.content, hd.home, hd.chunkSize, hd.reader, hd.running⟩

/-- The loop of `_get_file` ends with the rest of the entry. -/
theorem Reads.readToEnd {V : VolumeId} {r : ContentRow} (h : Reaches C M (Careful C M own) s) :
    ∀ {turns : ℕ} {d : Descriptor}, Reads s V r d → d.pos ≤ r.size → r.size - d.pos < turns →
      readToEnd C (own V) s.db turns d = ((s.committed d.node).drop d.pos, none) := by
  intro turns
  induction turns with
  | zero =>
    intro d _ _ hlt
    omega
  | succ turns ih =>
    intro d hd hpos hlt
    obtain ⟨hsize, hread⟩ := hd.read h transferChunk
    have hchunk : 0 < transferChunk := by decide
    rw [Aloelite.readToEnd, hread]
    by_cases hend : min r.size (d.pos + transferChunk) ≤ d.pos
    · rw [if_pos hend]
      have hall : d.pos = r.size := by omega
      rw [hall, hsize, List.drop_length]
      rfl
    · rw [if_neg hend]
      have hnext := ih (hd.at (min r.size (d.pos + transferChunk))) (Nat.min_le_left _ _)
        (by change r.size - min r.size (d.pos + transferChunk) < turns; omega)
      have hsome : ((s.committed d.node).take (min r.size (d.pos + transferChunk))).drop d.pos ≠
          [] := by
        intro hnil
        have hlength := congrArg List.length hnil
        rw [List.length_drop, List.length_take, List.length_nil] at hlength
        omega
      dsimp only
      rw [if_neg hsome, hnext]
      have hjoin : ((s.committed d.node).take (min r.size (d.pos + transferChunk))).drop d.pos ++
          (s.committed d.node).drop (min r.size (d.pos + transferChunk)) =
          (s.committed d.node).drop d.pos := by
        rw [List.drop_take]
        have hsplit : (s.committed d.node).drop (min r.size (d.pos + transferChunk)) =
            ((s.committed d.node).drop d.pos).drop
              (min r.size (d.pos + transferChunk) - d.pos) := by
          rw [List.drop_drop]
          congr 1
          omega
        rw [hsplit, List.take_append_drop]
      exact Prod.ext hjoin rfl

/-- What `get -r` asks of one entry, when the local file system takes it. -/
theorem getFile_eq {src : String} {path : List (List Char)} (h : Reaches C M (Careful C M own) s)
    (hm : requireMount E (own ctx.volume) s.db mount false = .ok ctx)
    (hfound : resolve s.db ctx.mountPoint src = .ok ⟨n, t⟩) (ht : t ≠ .container)
    (htakes : accepts g.log (.write path (s.committed n)) = true) :
    getFile C E (own ctx.volume) s.db mount accepts src path g =
      { g with log := g.log ++ [.write path (s.committed n)], files := g.files + 1 } := by
  have hhome : s.db.home? n = some ctx.volume := h.homed.resolve hm hfound
  have hopen : openRead E (own ctx.volume) s.db mount src =
      .ok { node := n, volume := ctx.volume, cs := chunkSizeOf s.db ctx.volume,
            writable := false } := by
    rw [openRead, hm, ok_bind, hfound, ok_bind]
    simp only [ht, decide_false, refuse]
    rfl
  have htype : s.db.nodeType? n = some t := resolve_nodeType hfound
  have hsome : (s.db.content? n).isSome := h.orderly.writers.stored.2 _ _ (by simp) htype ht
  obtain ⟨r, hr⟩ := Option.isSome_iff_exists.mp hsome
  have hreads : Reads s ctx.volume r
      { node := n, volume := ctx.volume, cs := chunkSizeOf s.db ctx.volume, writable := false } :=
    ⟨hr, hhome, rfl, rfl, rfl⟩
  have henough : r.size - 0 < r.size + 1 := by omega
  have hgot := hreads.readToEnd h (Nat.zero_le _) henough
  rw [getFile, hopen]
  simp only [hr, Option.map_some, Option.getD_some]
  rw [hgot]
  simp only [List.drop_zero, htakes, if_true]

/-! ### The loop -/

/-- What a node comes to on the local side: a directory, or a file of its bytes. -/
def LocalAct.of (s : Sys) (chain : List String) (n : NodeId) (t : NodeType) : LocalAct :=
  if t = .container then .mkdir (chain.map String.toList)
    else .write (chain.map String.toList) (s.committed n)

theorem LocalAct.of_path : (LocalAct.of s chain n t).path = chain.map String.toList := by
  rw [LocalAct.of]
  split <;> rfl

/-- Something the download may do: the making of a node with a safe chain. -/
def Meant (s : Sys) (c : NodeId) (act : LocalAct) : Prop :=
  ∃ chain n t, Seen s.db c chain n t ∧ SafeChain chain ∧ act = LocalAct.of s chain n t

/-- Everything done is the making of a node with a safe chain, and everything pruned has
an unsafe one. -/
structure Faithful (s : Sys) (c : NodeId) (g : Download) : Prop where
  running : g.stopped = none
  acts : ∀ act ∈ g.log, Meant s c act
  pruned : ∀ rel ∈ g.pruned, ∃ chain, rel = relOf chain ∧ (∀ name ∈ chain, IsSegment name) ∧
    ¬ SafeChain chain

/-- A node was taken care of. -/
structure Handled (s : Sys) (g : Download) (chain : List String) (n : NodeId) (t : NodeType) :
    Prop where
  made : SafeChain chain → LocalAct.of s chain n t ∈ g.log
  refused : ¬ SafeChain chain → t = .container → relOf chain ∈ g.pruned

/-- Later in the same download. -/
structure GrowsTo (g g' : Download) : Prop where
  log : g.log ⊆ g'.log
  pruned : g.pruned ⊆ g'.pruned

theorem GrowsTo.refl (g : Download) : GrowsTo g g := ⟨fun _ h => h, fun _ h => h⟩

theorem GrowsTo.trans {g g' g'' : Download} (h : GrowsTo g g') (h' : GrowsTo g' g'') :
    GrowsTo g g'' :=
  ⟨fun _ hx => h'.log (h.log hx), fun _ hx => h'.pruned (h.pruned hx)⟩

theorem Handled.grows {g g' : Download} (h : Handled s g chain n t) (hg : GrowsTo g g') :
    Handled s g' chain n t :=
  ⟨fun hsafe => hg.log (h.made hsafe), fun hun ht => hg.pruned (h.refused hun ht)⟩

/-- The relative path of a container is pruned exactly when a name on its way is unsafe. -/
theorem Faithful.mem_pruned_iff (hf : Faithful s c g) (hsegs : ∀ name ∈ chain, IsSegment name)
    (hentered : Handled s g chain n .container) : relOf chain ∈ g.pruned ↔ ¬ SafeChain chain := by
  constructor
  · intro h
    obtain ⟨chain', hrel, hsegs', hun⟩ := hf.pruned _ h
    rw [relOf_injective hsegs hsegs' hrel]
    exact hun
  · intro hun
    exact hentered.refused hun rfl

theorem map_toList_injective : Function.Injective (List.map String.toList) :=
  List.map_injective_iff.mpr (fun _ _ => String.toList_injective)

/-- What is done next fits what was done: no file is in the way, and the directory of a file
was made. -/
theorem Faithful.fits {p : NodeId} (hf : Faithful s c g)
    (hseen : Seen s.db c (chain ++ [name]) n t) (hmade : LocalAct.of s chain p .container ∈ g.log) :
    Fits g.log (LocalAct.of s (chain ++ [name]) n t) := by
  by_cases ht : t = .container
  · rw [LocalAct.of, if_pos ht]
    intro q data hq hway
    obtain ⟨chain', n', t', hseen', -, hact⟩ := hf.acts _ hq
    rw [LocalAct.of] at hact
    split at hact
    · cases hact
    next ht' =>
      obtain ⟨rfl, -⟩ := LocalAct.write.inj hact
      obtain ⟨rest, hrest⟩ := hway
      -- the file would have to be a container: it is on the way, or the node itself
      have hlength : ∃ rest', chain ++ [name] = chain' ++ rest' := by
        have htake := congrArg (List.take chain'.length) hrest
        rw [List.take_left' (by simp), ← List.map_take] at htake
        refine ⟨(chain ++ [name]).drop chain'.length, ?_⟩
        have hstart := map_toList_injective htake
        conv_lhs => rw [← List.take_append_drop chain'.length (chain ++ [name]), ← hstart]
      obtain ⟨rest', hrest'⟩ := hlength
      apply ht'
      by_cases hnil : rest' = []
      · rw [hnil, List.append_nil] at hrest'
        rw [hrest'] at hseen
        exact (hseen'.functional hseen).2.trans ht
      · rw [hrest'] at hseen
        obtain ⟨p', hp'⟩ := hseen.on_the_way hnil
        exact (hseen'.functional hp').2
  · rw [LocalAct.of, if_neg ht]
    refine ⟨by simp, ?_, ?_⟩
    · rw [List.map_append, List.map_singleton, List.dropLast_concat]
      exact hmade
    · intro hdir
      obtain ⟨chain', n', t', hseen', -, hact⟩ := hf.acts _ hdir
      rw [LocalAct.of] at hact
      split at hact
      next ht' =>
        have hsame := map_toList_injective (LocalAct.mkdir.inj hact)
        rw [← hsame] at hseen'
        exact ht ((hseen.functional hseen').2.trans ht')
      · cases hact

/-- One thing done, and counted. -/
def Download.done (g : Download) (act : LocalAct) (files dirs : ℕ) : Download :=
  { g with log := g.log ++ [act], files := files, dirs := dirs }

theorem Faithful.act (hf : Faithful s c g) (hseen : Seen s.db c chain n t)
    (hsafe : SafeChain chain) (files dirs : ℕ) :
    Faithful s c (g.done (LocalAct.of s chain n t) files dirs) ∧
      GrowsTo g (g.done (LocalAct.of s chain n t) files dirs) ∧
      Handled s (g.done (LocalAct.of s chain n t) files dirs) chain n t := by
  refine ⟨⟨hf.running, ?_, hf.pruned⟩, ⟨List.subset_append_left _ _, List.Subset.refl _⟩, ?_,
    fun hun => absurd hsafe hun⟩
  · intro act hact
    rcases List.mem_append.mp hact with hact | hact
    · exact hf.acts act hact
    · exact ⟨chain, n, t, hseen, hsafe, List.mem_singleton.mp hact⟩
  · intro _
    exact List.mem_append_right _ (List.mem_singleton_self _)

theorem Faithful.refuse {isDir : Bool} (hf : Faithful s c g)
    (hsegs : ∀ name ∈ chain, IsSegment name) (hun : ¬ SafeChain chain)
    (hdir : t = .container → isDir = true) :
    Faithful s c (g.refused (relOf chain) isDir) ∧ GrowsTo g (g.refused (relOf chain) isDir) ∧
      Handled s (g.refused (relOf chain) isDir) chain n t := by
  have hgrows : g.pruned ⊆ (g.refused (relOf chain) isDir).pruned := by
    rw [Download.refused]
    dsimp only
    split
    · exact List.subset_cons_self _ _
    · exact List.Subset.refl _
  refine ⟨⟨hf.running, hf.acts, ?_⟩, ⟨List.Subset.refl _, hgrows⟩, fun hsafe =>
    absurd hsafe hun, ?_⟩
  · intro rel hrel
    rw [Download.refused] at hrel
    dsimp only at hrel
    split at hrel
    · rcases List.mem_cons.mp hrel with rfl | hrel
      · exact ⟨chain, rfl, hsegs, hun⟩
      · exact hf.pruned rel hrel
    · exact hf.pruned rel hrel
  · intro _ ht
    rw [Download.refused, if_pos (hdir ht)]
    exact List.mem_cons_self

/-- A local directory that takes what the download does, as it comes. -/
def TakesMeant (s : Sys) (c : NodeId) (accepts : List LocalAct → LocalAct → Bool) : Prop :=
  ∀ log act, (∀ done ∈ log, Meant s c done) → Meant s c act → Fits log act → accepts log act = true

/-- What a download rests on: the mount, names a path can hold, a local directory that takes
what the download does. -/
structure Downloading (C : Crypto) (M : Msgpack) (E : Env) (own : VolumeId → Cipher) (s : Sys)
    (mount : MountId) (accepts : List LocalAct → LocalAct → Bool) (ctx : MountCtx) (c : NodeId) :
    Prop where
  reaches : Reaches C M (Careful C M own) s
  mounted : requireMount E (own ctx.volume) s.db mount false = .ok ctx
  meets : MeetsSegments s.db c
  takes : TakesMeant s c accepts

/-- One entry of a listing: it is made in its place, or refused with what is below it. -/
theorem getEntry_handles {p : NodeId} {r : ListedRow} {e : DirEntry}
    (hd : Downloading C M E own s mount accepts ctx c) (hf : Faithful s c g)
    (hp : Seen s.db c chain p .container) (hentered : Handled s g chain p .container)
    (hr : r ∈ s.db.listChildren p) (hvisible : r.visible = true) (hname : e.name = r.name)
    (htype : e.type = r.type)
    (hpath : resolve s.db ctx.mountPoint e.path = .ok ⟨r.nodeId, r.type⟩) :
    Faithful s c (getEntry C E (own ctx.volume) s.db mount accepts (relOf chain) g e) ∧
      GrowsTo g (getEntry C E (own ctx.volume) s.db mount accepts (relOf chain) g e) ∧
        Handled s (getEntry C E (own ctx.volume) s.db mount accepts (relOf chain) g e)
          (chain ++ [r.name]) r.nodeId r.type := by
  have hsegs := hp.segments hd.meets
  have hseen : Seen s.db c (chain ++ [r.name]) r.nodeId r.type := Seen.child hp hr hvisible
  have hsegs' := hseen.segments hd.meets
  have hseg : IsSegment r.name := (hd.meets chain p hp r hr hvisible).1
  have hrel : childRel (relOf chain) e.name = relOf (chain ++ [r.name]) := by
    rw [hname, childRel_relOf hsegs]
  have hrunning : g.stopped.isSome = false := by rw [hf.running, Option.isSome_none]
  have hmem := hf.mem_pruned_iff hsegs hentered
  have hdir : r.type = .container → e.isDir = true := by
    intro ht
    simp [DirEntry.isDir, htype, ht]
  rw [getEntry, hrunning, hrel]
  simp only [Bool.false_eq_true, if_false, rpartition_relOf hsegs']
  by_cases hsafe : SafeChain chain
  swap
  · rw [if_pos (hmem.mpr hsafe)]
    exact hf.refuse hsegs' (fun hall => hsafe (safeChain_snoc.mp hall).1) hdir
  rw [if_neg (fun hin => hmem.mp hin hsafe)]
  by_cases hpiece : SafePiece r.name.toList
  swap
  · rw [if_pos (not_not.mp (mt (safePiece_iff hseg).mpr hpiece))]
    exact hf.refuse hsegs' (fun hall => hpiece (safeChain_snoc.mp hall).2) hdir
  have hsafe' : SafeChain (chain ++ [r.name]) := safeChain_snoc.mpr ⟨hsafe, hpiece⟩
  have hfits := hd.takes _ _ hf.acts ⟨_, _, _, hseen, hsafe', rfl⟩
      (hf.fits hseen (hentered.made hsafe))
  rw [if_neg ((safePiece_iff hseg).mp hpiece), localPieces_relOf hsegs' (by simp)]
  by_cases ht : r.type = .container
  · rw [LocalAct.of, if_pos ht] at hfits
    rw [if_pos (hdir ht), makeDir, if_pos hfits]
    have hdone := hf.act hseen hsafe' g.files (g.dirs + 1)
    rw [LocalAct.of, if_pos ht] at hdone
    exact hdone
  · rw [LocalAct.of, if_neg ht] at hfits
    have hleaf : e.isDir = false := by simp [DirEntry.isDir, htype, ht]
    rw [hleaf, getFile_eq hd.reaches hd.mounted hpath ht hfits]
    simp only [Bool.false_eq_true, if_false]
    have hdone := hf.act hseen hsafe' (g.files + 1) g.dirs
    rw [LocalAct.of, if_neg ht] at hdone
    exact hdone

/-- The entries of a listing, one after the other. -/
theorem getEntries_handle {p : NodeId} {rows : List ListedRow} {cwd : String}
    (hd : Downloading C M E own s mount accepts ctx c)
    (hf : Faithful s c g) (hp : Seen s.db c chain p .container)
    (hentered : Handled s g chain p .container)
    (hrows : ∀ r ∈ rows, r ∈ s.db.listChildren p ∧ r.visible = true)
    (hpath : ∀ r ∈ rows, resolve s.db ctx.mountPoint (DirEntry.ofRow cwd r).path =
      .ok ⟨r.nodeId, r.type⟩) :
    let g' := (rows.map (DirEntry.ofRow cwd)).foldl
      (getEntry C E (own ctx.volume) s.db mount accepts (relOf chain)) g
    Faithful s c g' ∧ GrowsTo g g' ∧ ∀ r ∈ rows,
      Handled s g' (chain ++ [r.name]) r.nodeId r.type := by
  induction rows generalizing g with
  | nil =>
    refine ⟨hf, GrowsTo.refl g, ?_⟩
    intro r hr
    cases hr
  | cons r rows ih =>
    obtain ⟨hr, hvisible⟩ := hrows r List.mem_cons_self
    obtain ⟨hf', hgrows, hhandled⟩ :=
      getEntry_handles hd hf hp hentered hr hvisible rfl rfl (hpath r List.mem_cons_self)
    obtain ⟨hf'', hgrows', hrest⟩ :=
      ih hf' (hentered.grows hgrows) (fun x hx => hrows x (List.mem_cons_of_mem _ hx))
      (fun x hx => hpath x (List.mem_cons_of_mem _ hx))
    refine ⟨hf'', hgrows.trans hgrows', ?_⟩
    intro x hx
    rcases List.mem_cons.mp hx with rfl | hx
    · exact hhandled.grows hgrows'
    · exact hrest x hx

/-- An item of the queue: the relative path and the path of a container that was entered. -/
def Queued (s : Sys) (ctx : MountCtx) (c : NodeId) (g : Download) (item : List Char × String) :
    Prop :=
  ∃ chain p, item.1 = relOf chain ∧ Seen s.db c chain p .container ∧
    Handled s g chain p .container ∧
    Legible item.2 ∧ resolve s.db ctx.mountPoint item.2 = .ok ⟨p, .container⟩

theorem Queued.grows {item : List Char × String} {g g' : Download} (h : Queued s ctx c g item)
    (hg : GrowsTo g g') :
    Queued s ctx c g' item := by
  obtain ⟨chain, p, hrel, hseen, hhandled, hcur⟩ := h
  exact ⟨chain, p, hrel, hseen, hhandled.grows hg, hcur⟩

/-- A turn of the walk: every visible child of the container is taken care of, and the containers
among them are queued. -/
theorem walkTurn_handles {p : NodeId} {cur : String}
    (hd : Downloading C M E own s mount accepts ctx c) (hf : Faithful s c g)
    (hp : Seen s.db c chain p .container) (hentered : Handled s g chain p .container)
    (hlegible : Legible cur) (hcur : resolve s.db ctx.mountPoint cur = .ok ⟨p, .container⟩) :
    let next := walkTurn C E (own ctx.volume) s.db mount accepts (relOf chain, cur) g
    Faithful s c next.1 ∧ GrowsTo g next.1 ∧ (∀ item ∈ next.2, Queued s ctx c next.1 item) ∧
      ∀ r ∈ s.db.listChildren p, r.visible = true →
      Handled s next.1 (chain ++ [r.name]) r.nodeId r.type ∧
        (r.type = .container → ∃ path, (relOf (chain ++ [r.name]), path) ∈ next.2) := by
  have hlist : list E (own ctx.volume) s.db mount cur =
      .ok ((s.db.listChildren p).map (DirEntry.ofRow (listingPath cur))) := by
    rw [list, hd.mounted, ok_bind, hcur, ok_bind]
    rfl
  have hsegs := hp.segments hd.meets
  have hrunning : g.stopped.isSome = false := by rw [hf.running, Option.isSome_none]
  have hshown : ((s.db.listChildren p).map (DirEntry.ofRow (listingPath cur))).filter
      DirEntry.visible =
      ((s.db.listChildren p).filter ListedRow.visible).map (DirEntry.ofRow (listingPath cur)) := by
    rw [List.filter_map]
    rfl
  have hrows : ∀ r ∈ (s.db.listChildren p).filter ListedRow.visible, r ∈ s.db.listChildren p ∧
      r.visible = true := by
    intro r hr
    exact List.mem_filter.mp hr
  -- the path an entry is shown with leads to it
  have hpaths : ∀ r ∈ (s.db.listChildren p).filter ListedRow.visible,
      Legible (DirEntry.ofRow (listingPath cur) r).path ∧
        resolve s.db ctx.mountPoint (DirEntry.ofRow (listingPath cur) r).path =
        .ok ⟨r.nodeId, r.type⟩ := by
    intro r hr
    obtain ⟨hr, hvisible⟩ := hrows r hr
    exact resolve_entryPath hlegible hcur (hd.meets chain p hp r hr hvisible) hr hvisible
  obtain ⟨hf', hgrows, hhandled⟩ :=
    getEntries_handle hd hf hp hentered hrows (fun r hr => (hpaths r hr).2)
  have hrel : ∀ r : ListedRow, childRel (relOf chain) (DirEntry.ofRow (listingPath cur) r).name =
      relOf (chain ++ [r.name]) := by
    intro r
    exact childRel_relOf hsegs
  simp only [walkTurn, hrunning, hlist, hshown, Bool.false_eq_true, if_false]
  refine ⟨hf', hgrows, ?_, ?_⟩
  · intro item hitem
    obtain ⟨e, he, rfl⟩ := List.mem_map.mp hitem
    obtain ⟨he, hdir⟩ := List.mem_filter.mp he
    obtain ⟨r, hr, rfl⟩ := List.mem_map.mp he
    obtain ⟨hmem, hvisible⟩ := hrows r hr
    have ht : r.type = .container := of_decide_eq_true hdir
    have hseen := Seen.child hp hmem hvisible
    obtain ⟨hwhole, hpath⟩ := hpaths r hr
    have hdone := hhandled r hr
    rw [ht] at hseen hpath hdone
    exact ⟨chain ++ [r.name], r.nodeId, hrel r, hseen, hdone, hwhole, hpath⟩
  · intro r hr hvisible
    have hmem : r ∈ (s.db.listChildren p).filter ListedRow.visible :=
      List.mem_filter.mpr ⟨hr, hvisible⟩
    refine ⟨hhandled r hmem, ?_⟩
    intro ht
    refine ⟨(DirEntry.ofRow (listingPath cur) r).path, ?_⟩
    rw [← hrel r]
    apply List.mem_map_of_mem
    apply List.mem_filter.mpr
    refine ⟨List.mem_map_of_mem hmem, ?_⟩
    exact decide_eq_true ht

end Aloelite
