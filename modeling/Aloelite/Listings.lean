import Aloelite.OpsListing
import Aloelite.Naming
import Aloelite.Removal

/-! NODE-5: what a listing shows against what paths resolve to. The two agree while
no node is placed twice under one name in one container and every name is one that
a path can hold; the engine checks neither. -/
namespace Aloelite

open Fallible KeyedRows Relation

variable {C : Crypto} {M : Msgpack} {E : Env} {k : Cipher} {db db' : Db} {tx tx' : Tx}
  {mount : MountId} {path src dst name : String} {n c : NodeId} {s : Sys} {l : Label} {op : Op}
  {conn : ConnId}

/-! ### Joined paths -/

theorem splitPath_join (hname : IsSegment name) :
    splitPath (path ++ "/" ++ name) = splitPath path ++ [name] := by
  have hchars : (path ++ "/" ++ name).toList = path.toList ++ '/' :: name.toList := by simp
  have hlast : name.toList.splitOn '/' = [name.toList] := List.splitOn_eq_singleton hname.2
  rw [splitPath, hchars, List.splitOn_append_cons_self, hlast, List.filter_append, List.map_append,
    List.filter_cons_of_pos (by simpa using hname.1)]
  simp [splitPath]

/-- A tail of separators holds no segment. -/
theorem filter_splitOn_separators {tail : List Char} (htail : ∀ ch ∈ tail, ch = '/') :
    (tail.splitOn '/').filter (fun seg => seg ≠ []) = [] := by
  induction tail with
  | nil => simp
  | cons ch tail ih =>
    obtain rfl : ch = '/' := htail ch List.mem_cons_self
    have hrest := ih (fun c hc => htail c (List.mem_cons_of_mem _ hc))
    have hsplit : ('/' :: tail).splitOn '/' = [].splitOn '/' ++ tail.splitOn '/' :=
      List.splitOn_append_cons_self [] tail
    rw [hsplit, List.filter_append, hrest]
    simp

theorem splitPath_rstripSlash (path : String) : splitPath (rstripSlash path) = splitPath path := by
  have hwhole : path.toList = (path.toList.reverse.dropWhile (· = '/')).reverse ++
      (path.toList.reverse.takeWhile (· = '/')).reverse := by
    rw [← List.reverse_append, List.takeWhile_append_dropWhile, List.reverse_reverse]
  have htail : ∀ ch ∈ (path.toList.reverse.takeWhile (· = '/')).reverse, ch = '/' := by
    intro ch hch
    simpa using List.all_eq_true.mp List.all_takeWhile ch (List.mem_reverse.mp hch)
  rw [rstripSlash, splitPath, splitPath, String.toList_ofList]
  generalize (path.toList.reverse.dropWhile (· = '/')).reverse = front at hwhole
  generalize (path.toList.reverse.takeWhile (· = '/')).reverse = tail at hwhole htail
  rw [hwhole]
  cases tail with
  | nil => rw [List.append_nil]
  | cons ch tail =>
    obtain rfl : ch = '/' := htail ch List.mem_cons_self
    rw [List.splitOn_append_cons_self, List.filter_append,
      filter_splitOn_separators (fun c hc => htail c (List.mem_cons_of_mem _ hc)), List.append_nil]

theorem splitPath_joined {segs : List String} (hsegs : ∀ seg ∈ segs, IsSegment seg) :
    splitPath ("/" ++ "/".intercalate segs) = segs := by
  have hslash : "/".toList = ['/'] := rfl
  rw [splitPath, String.toList_append, String.toList_intercalate, hslash]
  have hsplit : (['/'] ++ ['/'].intercalate (segs.map String.toList)).splitOn '/' =
      [].splitOn '/' ++ (['/'].intercalate (segs.map String.toList)).splitOn '/' :=
    List.splitOn_append_cons_self [] _
  rw [hsplit, List.filter_append]
  cases hne : segs with
  | nil => simp
  | cons seg rest =>
    rw [← hne]
    have hfree : ∀ cs ∈ segs.map String.toList, '/' ∉ cs := by
      intro cs hcs
      obtain ⟨seg', hseg', rfl⟩ := List.mem_map.mp hcs
      exact (hsegs seg' hseg').2
    have hkept : ∀ cs ∈ segs.map String.toList, decide (cs ≠ []) = true := by
      intro cs hcs
      obtain ⟨seg', hseg', rfl⟩ := List.mem_map.mp hcs
      simpa using (hsegs seg' hseg').1
    have hid : String.ofList ∘ String.toList = id := by
      funext seg'
      exact String.ofList_toList
    rw [List.splitOn_intercalate _ hfree (by simp [hne]), List.filter_eq_self.mpr hkept,
      List.splitOn_nil,
      List.filter_cons_of_neg (by simp), List.filter_nil, List.nil_append, List.map_map, hid,
      List.map_id]

theorem splitPath_listingPath (path : String) : splitPath (listingPath path) = splitPath path :=
  splitPath_joined (splitPath_isSegment path)

/-- The path of a listed entry is the path of the listing and its name. -/
theorem splitPath_entryPath {e : DirEntry} (hname : IsSegment e.name)
    (hcwd : e.currentDirectory = listingPath path) :
    splitPath e.path = splitPath path ++ [e.name] := by
  rw [DirEntry.path, splitPath_join hname, splitPath_rstripSlash, hcwd, splitPath_listingPath]

/-- A path that reaches a container goes on at its children. -/
theorem resolve_child {mountPoint : NodeId} {child : String} {t : NodeType} (hpath : Legible path)
    (hname : NulFree name) (hc : resolve db mountPoint path = .ok ⟨c, .container⟩)
    (hsplit : splitPath child = splitPath path ++ [name]) :
    resolve db mountPoint child = .ok ⟨n, t⟩ ↔
      ∃ hit, db.resolveSegment c name = some hit ∧ hit.nodeId = n ∧ hit.type = t := by
  have hstart : descend db mountPoint .container (splitPath path) = .ok ⟨c, .container⟩ := by
    rcases (resolve_eq_ok hpath).mp hc with ⟨hnil, hnode, -⟩ | ⟨-, hd⟩
    · rw [hnil]
      exact congrArg Except.ok (congrArg (fun a => Resolved.mk a .container) hnode.symm)
    · exact hd
  have hlast : descend db c .container [name] = .ok ⟨n, t⟩ ↔
      ∃ hit, db.resolveSegment c name = some hit ∧ hit.nodeId = n ∧ hit.type = t := by
    cases hhit : db.resolveSegment c name with
    | none => simp [descend, hhit]
    | some hit => simp [descend, hhit]
  rw [← hlast, resolve_eq_ok (hpath.snoc hname hsplit), hsplit]
  constructor
  · intro h
    rcases h with ⟨hnil, -⟩ | ⟨-, hd⟩
    · simp at hnil
    · obtain ⟨mid, hmid, hrest⟩ := descend_append.mp hd
      obtain rfl := Except.ok.inj (hmid.symm.trans hstart)
      exact hrest
  · intro h
    exact Or.inr ⟨by simp, descend_append.mpr ⟨_, hstart, h⟩⟩

/-! ### Rows -/

theorem mem_directoryListing {r : ListedRow} :
    r ∈ db.directoryListing c ↔ ∃ e ∈ db.activeEdges, e.fromId = c ∧ ∃ hit,
      db.node? e.toId = some hit ∧
      r = { nodeId := hit.nodeId, name := e.name, type := hit.type, edgeId := e.edgeId,
            visible := db.winMax c e.name = some hit.nodeId } := by
  simp only [Db.directoryListing, List.mem_filterMap, List.mem_filter, decide_eq_true_eq,
    Option.map_eq_some_iff]
  constructor
  · intro h
    obtain ⟨e, ⟨he, hfrom⟩, hit, hhit, heq⟩ := h
    exact ⟨e, he, hfrom, hit, hhit, heq.symm⟩
  · intro h
    obtain ⟨e, he, hfrom, hit, hhit, heq⟩ := h
    exact ⟨e, ⟨he, hfrom⟩, hit, hhit, heq.symm⟩

theorem mem_listChildren {r : ListedRow} : r ∈ db.listChildren c ↔ r ∈ db.directoryListing c :=
  List.mem_insertionSort _

/-- What a child lookup finds is what the listing shows under that name. -/
theorem resolveSegment_iff_listed {hit : NodeRow} :
    db.resolveSegment c name = some hit ↔
      ∃ r ∈ db.listChildren c, r.visible = true ∧ r.name = name ∧ db.node? r.nodeId = some hit := by
  rw [← Db.walkHit_eq_resolveSegment]
  change (db.winMax c name).bind db.node? = some hit ↔ _
  constructor
  · intro h
    obtain ⟨top, hmax, hhit⟩ := Option.bind_eq_some_iff.mp h
    obtain ⟨row, hrow, hid⟩ := List.mem_map.mp (List.max?_mem hmax)
    obtain ⟨e, he, hfrom, hname, hto⟩ := Db.mem_placedUnder.mp hrow
    refine ⟨_, mem_listChildren.mpr (mem_directoryListing.mpr ⟨e, he, hfrom, row, hto, rfl⟩), ?_,
      hname, ?_⟩
    · rw [decide_eq_true_eq, hname, hid]
      exact hmax
    · change db.node? row.nodeId = some hit
      rw [hid]
      exact hhit
  · intro h
    obtain ⟨r, hr, hvisible, hname, hhit⟩ := h
    obtain ⟨e, he, hfrom, row, hto, rfl⟩ := mem_directoryListing.mp (mem_listChildren.mp hr)
    have htop : db.winMax c e.name = some row.nodeId := of_decide_eq_true hvisible
    have hname' : e.name = name := hname
    rw [← hname', htop]
    exact hhit

/-- What a row says of the placements. -/
def ListedRow.placement (c : NodeId) (r : ListedRow) : NodeId × NodeId × String :=
  (c, r.nodeId, r.name)

/-- A listing holds each placement at most as often as the table does. -/
theorem placements_directoryListing (db : Db) (c : NodeId) :
    ((db.directoryListing c).map (ListedRow.placement c)).Sublist db.placements := by
  rw [Db.directoryListing, Db.placements]
  induction db.activeEdges with
  | nil => exact List.Sublist.refl _
  | cons e es ih =>
    rw [List.map_cons]
    by_cases hfrom : e.fromId = c
    · rw [List.filter_cons_of_pos (by simpa using hfrom), List.filterMap_cons]
      cases hto : db.node? e.toId with
      | none => exact List.Sublist.cons _ ih
      | some hit =>
        have hsame : ListedRow.placement c
            { nodeId := hit.nodeId, name := e.name, type := hit.type, edgeId := e.edgeId,
              visible := db.winMax c e.name = some hit.nodeId } = e.placement := by
          rw [ListedRow.placement, EdgeRow.placement, Db.nodeId_of_node? hto, hfrom]
        simp only [Option.map_some, List.map_cons, hsame]
        exact ih.cons_cons _
    · rw [List.filter_cons_of_neg (by simpa using hfrom)]
      exact List.Sublist.cons _ ih

/-- Where no placement is twice, a listing shows one row a name at most. -/
theorem visible_atMostOne (hdistinct : db.placements.Nodup) (c : NodeId) (name : String) :
    ((db.listChildren c).filter (fun r => r.visible ∧ r.name = name)).length ≤ 1 := by
  let shown : ListedRow → Bool := fun r => r.visible ∧ r.name = name
  have hperm : ((db.listChildren c).filter shown).Perm ((db.directoryListing c).filter shown) :=
    (List.perm_insertionSort _ _).filter _
  rw [hperm.length_eq, ← List.length_map (ListedRow.placement c)]
  have hnodup : (((db.directoryListing c).filter shown).map (ListedRow.placement c)).Nodup :=
    (hdistinct.sublist (placements_directoryListing db c)).sublist (List.filter_sublist.map _)
  have hone : ∀ q ∈ ((db.directoryListing c).filter shown).map (ListedRow.placement c),
      q = (c, (db.winMax c name).getD 0, name) := by
    intro q hq
    obtain ⟨r, hr, rfl⟩ := List.mem_map.mp hq
    obtain ⟨hlisted, hshown⟩ := List.mem_filter.mp hr
    obtain ⟨e, -, -, hit, -, rfl⟩ := mem_directoryListing.mp hlisted
    have hboth : db.winMax c e.name = some hit.nodeId ∧ e.name = name := by
      simpa [shown] using hshown
    rw [ListedRow.placement, ← hboth.2, hboth.1]
    rfl
  match hlist : ((db.directoryListing c).filter shown).map (ListedRow.placement c) with
  | [] => simp
  | [q] => simp
  | q :: q' :: rest =>
    rw [hlist] at hnodup hone
    have heq : q = q' := (hone q (by simp)).trans (hone q' (by simp)).symm
    simp [heq] at hnodup

/-! ### Files whose listings can be walked -/

/-- A name a path can hold, or that of a node no path asks the name of. -/
def Db.Titled (db : Db) (n : NodeId) : Prop :=
  ∃ name, db.nodeName? n = some name ∧ (IsName name ∨ db.nodeType? n ≠ some .container)

/-- No placement is there twice, and every name fits into a path. -/
structure Db.Listable (db : Db) : Prop where
  distinct : db.placements.Nodup
  named : ∀ p ∈ db.placements, IsName p.2.2
  titled : ∀ p ∈ db.placements, db.Titled p.2.1

theorem Db.Titled.of_same (h : db.Titled n) (hname : db'.nodeName? n = db.nodeName? n)
    (htype : db'.nodeType? n = db.nodeType? n) : db'.Titled n := by
  rw [Db.Titled, hname, htype]
  exact h

theorem Listable.settled (hl : db.Listable) (h : Settled db db') : db'.Listable := by
  refine ⟨hl.distinct.sublist h.placements, ?_, ?_⟩
  · intro p hp
    exact hl.named p (h.placements.subset hp)
  · intro p hp
    exact (hl.titled p (h.placements.subset hp)).of_same (h.names _) (h.types _)

/-- One placement more, or one in another's place. -/
theorem Listable.placed {ps : List (NodeId × NodeId × String)} {p : NodeId × NodeId × String}
    (hl : db.Listable) (hsub : ps.Sublist db.placements) (heq : db'.placements = ps ++ [p])
    (hnew : p ∉ ps) (hseg : IsName p.2.2) (hold : ∀ q ∈ ps, db'.Titled q.2.1)
    (hself : db'.Titled p.2.1) : db'.Listable := by
  have hmem : ∀ q ∈ db'.placements, q ∈ ps ∨ q = p := by
    intro q hq
    rw [heq, List.mem_append, List.mem_singleton] at hq
    exact hq
  refine ⟨?_, ?_, ?_⟩
  · rw [heq, List.nodup_append]
    refine ⟨hl.distinct.sublist hsub, List.nodup_singleton _, ?_⟩
    intro a ha b hb heq'
    obtain rfl := List.mem_singleton.mp hb
    exact hnew (heq' ▸ ha)
  · intro q hq
    rcases hmem q hq with hq | rfl
    · exact hl.named q (hsub.subset hq)
    · exact hseg
  · intro q hq
    rcases hmem q hq with hq | rfl
    · exact hold q hq
    · exact hself

/-- A node born under a name that fits is placed nowhere else. -/
theorem Listable.born {p : NodeId × NodeId × String} (hl : db.Listable) (h : Born p db db')
    (hseg : IsName p.2.2) : db'.Listable := by
  have habsent : ∀ q ∈ db.placements, q.2.1 ≠ p.2.1 := by
    intro q hq heq
    obtain ⟨name, hname, -⟩ := hl.titled q hq
    rw [heq, Db.nodeName?, h.fresh] at hname
    cases hname
  refine Listable.placed hl (List.Sublist.refl _) h.placements ?_ hseg ?_
    ⟨p.2.2, h.self, Or.inl hseg⟩
  · intro hp
    exact habsent p hp rfl
  · intro q hq
    exact (hl.titled q hq).of_same (h.others _ (habsent q hq)) (h.types _ (habsent q hq))

theorem Listable.grows {P : String → Prop} (hP : ∀ name, P name → IsName name) (h : Grows P db db')
    (hl : db.Listable) : db'.Listable := by
  induction h with
  | refl => exact hl
  | tail _ hstep ih =>
    rcases hstep with hsettled | ⟨p, hp, hborn⟩
    · exact Listable.settled ih hsettled
    · exact Listable.born ih hborn (hP _ hp)

/-- Naming one node keeps the titles, where the name fits. -/
theorem titled_renamed (hl : db.Listable) (hseg : IsName name)
    (hnames : ∀ n', db'.nodeName? n' = db.nodeName? n' ∨ (n' = n ∧ db'.nodeName? n' = some name))
    (htypes : ∀ n', db'.nodeType? n' = db.nodeType? n') :
    ∀ q ∈ db.placements, db'.Titled q.2.1 := by
  intro q hq
  rcases hnames q.2.1 with hsame | ⟨-, hnew⟩
  · exact (hl.titled q hq).of_same hsame (htypes _)
  · exact ⟨name, hnew, Or.inl hseg⟩

theorem Listable.renamed {parent : NodeId} {old : String} (hl : db.Listable) (hseg : IsName name)
    (hfree : name = old ∨ (parent, n, name) ∉ db.placements)
    (heq : db'.placements = db.placements.map (renamed parent n old name))
    (hnames : ∀ n', db'.nodeName? n' = db.nodeName? n' ∨ (n' = n ∧ db'.nodeName? n' = some name))
    (htypes : ∀ n', db'.nodeType? n' = db.nodeType? n') : db'.Listable := by
  have htitled := titled_renamed hl hseg hnames htypes
  refine ⟨?_, ?_, ?_⟩
  · rw [heq]
    refine hl.distinct.map_on ?_
    intro q hq q' hq' hsame
    rw [Aloelite.renamed, Aloelite.renamed] at hsame
    split at hsame
    next hold =>
      split at hsame
      next hold' => exact hold.trans hold'.symm
      next hother =>
        rcases hfree with rfl | hfree
        · exact hold.trans hsame
        · exact absurd (hsame ▸ hq') hfree
    next hother =>
      split at hsame
      next hold' =>
        rcases hfree with rfl | hfree
        · exact hsame.trans hold'.symm
        · exact absurd (hsame ▸ hq) hfree
      next => exact hsame
  · intro q hq
    rw [heq] at hq
    obtain ⟨q₀, hq₀, rfl⟩ := List.mem_map.mp hq
    rw [Aloelite.renamed]
    split
    · exact hseg
    · exact hl.named q₀ hq₀
  · intro q hq
    rw [heq] at hq
    obtain ⟨q₀, hq₀, rfl⟩ := List.mem_map.mp hq
    have hsame : (Aloelite.renamed parent n old name q₀).2.1 = q₀.2.1 := by
      rw [Aloelite.renamed]
      split
      next hold => rw [hold]
      next => rfl
    rw [hsame]
    exact htitled q₀ hq₀

/-! ### Steps that keep listings walkable -/

/-- A rename, as far as it gets, gives a name that fits and under which the node is
not yet placed in that container. -/
def RenamesApart (E : Env) (k : Cipher) (db : Db) (mount : MountId) (path name : String) : Prop :=
  ∀ m ∈ (requireMount E k db mount true).toOption,
    ∀ p ∈ (resolveParent db m.mountPoint path).toOption,
    ∀ found ∈ (resolve db m.mountPoint path).toOption,
      IsName name ∧ (name = p.name ∨ (p.container, found.node, name) ∉ db.placements)

/-- A move, as far as it gets, goes to where the node is not yet placed. -/
def MovesApart (E : Env) (k : Cipher) (db : Db) (mount : MountId) (src dst : String) : Prop :=
  ∀ m ∈ (requireMount E k db mount true).toOption,
    ∀ sp ∈ (resolveParent db m.mountPoint src).toOption,
    ∀ p ∈ (resolveParent db m.mountPoint dst).toOption,
    ∀ found ∈ (resolve db m.mountPoint src).toOption,
      (sp.container, sp.name) = (p.container, p.name) ∨
      (p.container, found.node, p.name) ∉ db.placements

/-- No name is given that a path cannot hold, and no node is placed twice under one
name in one container. -/
def Request.NamesApart (C : Crypto) (M : Msgpack) (E : Env) (k : Cipher) (db : Db)
    (mount : MountId) :
    Request → Prop
  | .createContainer path | .createEntry path _ | .createSpecial path _ _ | .link _ path | .copy _
    path =>
    Legible path
  | .rename path name => RenamesApart E k db mount path name
  | .move src dst => Legible dst ∧ MovesApart E k db mount src dst
  | .unpack path => ∀ pn ∈ unpackedNodes C M E k db mount path, IsName pn.n
  | _ => True

def NamesApart (C : Crypto) (M : Msgpack) (s : Sys) (l : Label) : Prop :=
  match l.op with
  | .request mount r => r.NamesApart C M l.env (s.conns l.conn).cipher s.db mount
  | .openWrite _ path _ _ => Legible path
  | _ => True

instance (C : Crypto) (M : Msgpack) (s : Sys) (l : Label) : Decidable (NamesApart C M s l) := by
  unfold NamesApart Request.NamesApart RenamesApart MovesApart
  split
  · split <;> infer_instance
  · infer_instance
  · infer_instance

theorem isName_of_resolveParent {a : NodeId} {p : Parent} (hlegible : Legible path)
    (h : resolveParent db a path = .ok p) : IsName p.name := by
  obtain ⟨hne, hname, -⟩ := resolveParent_descends h
  rw [hname, List.getLastD_eq_getLast?, List.getLast?_eq_getLast_of_ne_nil hne, Option.getD_some]
  exact hlegible.isName _ (List.getLast_mem hne)

/-- What a path leads to is placed under the path's last segment. -/
theorem resolveSegment_of_resolve {a : NodeId} {p : Parent} {found : Resolved}
    (hlegible : Legible path) (hp : resolveParent db a path = .ok p)
    (hfound : resolve db a path = .ok found) :
    ∃ hit, db.resolveSegment p.container p.name = some hit ∧ hit.nodeId = found.node ∧ hit.type =
      found.type := by
  have hlast := (resolve_of_parent hlegible hp).mp hfound
  rw [descend, if_pos rfl] at hlast
  cases hseg : db.resolveSegment p.container p.name with
  | none => simp [hseg] at hlast
  | some hit =>
    rw [hseg] at hlast
    obtain rfl := Except.ok.inj hlast
    exact ⟨hit, rfl, rfl, rfl⟩

theorem placed_of_resolve {a : NodeId} {p : Parent} {found : Resolved} (hlegible : Legible path)
    (hp : resolveParent db a path = .ok p) (hfound : resolve db a path = .ok found) :
    (p.container, found.node, p.name) ∈ db.placements := by
  obtain ⟨hit, hseg, hnode, -⟩ := resolveSegment_of_resolve hlegible hp hfound
  obtain ⟨⟨e, he, hfrom, hname, hto⟩, -⟩ := Db.resolveSegment_eq_some.mp hseg
  refine mem_placements.mpr ⟨e, he, ?_⟩
  rw [EdgeRow.placement, hfrom, hname, ← hnode, Db.nodeId_of_node? hto]

theorem rename_listable (hl : tx.db.Listable) (hapart : RenamesApart E k tx.db mount path name)
    (h : rename E k tx mount path name = .ok tx') : tx'.db.Listable := by
  obtain ⟨m, p, found, hm, hp, hfound, heq, hnames, htypes⟩ := rename_names h
  obtain ⟨hseg, hfree⟩ :=
    hapart m (mem_toOption.mpr hm) p (mem_toOption.mpr hp) found (mem_toOption.mpr hfound)
  exact Listable.renamed hl hseg hfree heq hnames htypes

/-- A link goes to a free name, and a leaf is not asked for its own. -/
theorem link_listable (hl : tx.db.Listable) (hlegible : Legible dst)
    (h : link E k tx mount src dst = .ok tx') :
    tx'.db.Listable := by
  obtain ⟨m, p, found, hm, hp, hfound, hleaf, hfree, heq, hnodes⟩ := link_names h
  have hnode : ∀ n, tx'.db.node? n = tx.db.node? n := by
    intro n
    rw [Db.node?, hnodes]
    rfl
  have hname : ∀ n, tx'.db.nodeName? n = tx.db.nodeName? n :=
    fun n => congrArg (Option.map NodeRow.name) (hnode n)
  have htype : ∀ n, tx'.db.nodeType? n = tx.db.nodeType? n :=
    fun n => congrArg (Option.map NodeRow.type) (hnode n)
  refine Listable.placed hl (List.Sublist.refl _) heq ?_ (isName_of_resolveParent hlegible hp) ?_ ?_
  · intro hplaced
    obtain ⟨e, he, heq'⟩ := mem_placements.mp hplaced
    obtain ⟨hfrom, hto, hseg⟩ : e.fromId = p.container ∧ e.toId = found.node ∧ e.name = p.name := by
      simpa [EdgeRow.placement] using heq'
    have htype' := resolve_nodeType hfound
    obtain ⟨r, hr, -⟩ := Option.map_eq_some_iff.mp htype'
    have hmem : r ∈ tx.db.placedUnder p.container p.name :=
      Db.mem_placedUnder.mpr ⟨e, he, hfrom, hseg, by rw [hto, hr]⟩
    rw [Db.resolveSegment_eq_none.mp hfree] at hmem
    cases hmem
  · intro q hq
    exact (hl.titled q hq).of_same (hname _) (htype _)
  · have htype' := resolve_nodeType hfound
    obtain ⟨r, hr, -⟩ := Option.map_eq_some_iff.mp htype'
    refine Db.Titled.of_same ⟨r.name, ?_, Or.inr ?_⟩ (hname _) (htype _)
    · rw [Db.nodeName?, hr]
      rfl
    · rw [htype']
      exact fun heq' => hleaf (Option.some.inj heq')

theorem move_listable (hl : tx.db.Listable) (hlegible : Legible dst)
    (hapart : MovesApart E k tx.db mount src dst) (h : move E k tx mount src dst = .ok tx') :
    tx'.db.Listable := by
  obtain ⟨m, sp, p, found, hm, hsp, hp, hfound, hwalked, heq, hnames, htypes⟩ := move_names h
  have hseg := isName_of_resolveParent hlegible hp
  have htitled := titled_renamed hl hseg hnames htypes
  refine Listable.placed hl List.filter_sublist heq ?_ hseg ?_ ?_
  · intro hnew
    obtain ⟨hplaced, hother⟩ := List.mem_filter.mp hnew
    rcases hapart m (mem_toOption.mpr hm) sp (mem_toOption.mpr hsp) p (mem_toOption.mpr hp) found
      (mem_toOption.mpr hfound) with hsame | hfree
    · obtain ⟨hcontainer, hname⟩ := Prod.mk.inj hsame
      rw [hcontainer, hname] at hother
      simp at hother
    · exact hfree hplaced
  · intro q hq
    exact htitled q (List.mem_filter.mp hq).1
  · have hmoved : tx'.db.Titled found.node :=
      htitled (sp.container, found.node, sp.name) hwalked
    exact hmoved

theorem request_listable {r : Request} {reply : Reply} (hl : tx.db.Listable)
    (hapart : r.NamesApart C M E k tx.db mount)
    (h : r.run C M E k tx mount = .ok (tx', reply)) : tx'.db.Listable := by
  by_cases hr : r.naming
  case neg => exact Listable.settled hl (request_settled hr h)
  cases r with
  | createContainer path =>
    obtain ⟨a, h, -⟩ := asReply_ok h
    obtain ⟨m, p, -, hp, hborn⟩ := createContainer_born h
    exact Listable.born hl hborn (isName_of_resolveParent hapart hp)
  | createEntry path data =>
    obtain ⟨a, h, -⟩ := asReply_ok h
    obtain ⟨m, p, -, hp, hborn⟩ := createLeaf_names h
    exact Listable.born hl hborn (isName_of_resolveParent hapart hp)
  | createSpecial path type data =>
    obtain ⟨a, h, -⟩ := asReply_ok h
    obtain ⟨m, p, -, hp, hborn⟩ := createSpecial_names h
    exact Listable.born hl hborn (isName_of_resolveParent hapart hp)
  | rename path name => exact rename_listable hl hapart (noReply_ok h)
  | link src dst => exact link_listable hl hapart (noReply_ok h)
  | move src dst => exact move_listable hl hapart.1 hapart.2 (noReply_ok h)
  | copy src dst =>
    obtain ⟨a, h, -⟩ := asReply_ok h
    obtain ⟨m, p, -, hp, hgrown⟩ := copy_names h
    refine Listable.grows ?_ hgrown hl
    intro name hname
    rcases hname with rfl | ⟨q, hq, rfl⟩
    · exact isName_of_resolveParent hapart hp
    · exact hl.named q hq
  | pack path =>
    obtain ⟨a, h, -⟩ := asReply_ok h
    obtain ⟨m, found, e, cont, tx₁, -, hfound, hcontainer, he, hcont, hrazed, hborn⟩ := pack_names h
    refine Listable.born (Listable.settled hl hrazed) hborn ?_
    have hactive : e ∈ tx.db.activeEdges := List.mem_of_find?_eq_some he
    have hto : e.toId = found.node := by simpa using List.find?_some he
    obtain ⟨name, hname, hseg⟩ := hl.titled e.placement (placement_mem_placements hactive)
    have htype := resolve_nodeType hfound
    rw [EdgeRow.placement, hto] at hname hseg
    rw [Db.nodeName?, hcont] at hname
    obtain rfl := Option.some.inj hname
    rcases hseg with hseg | hleaf
    · exact hseg
    · exact absurd (htype.trans (congrArg some hcontainer)) hleaf
  | unpack path =>
    refine Listable.grows ?_ (unpack_names (noReply_ok h)) hl
    intro name hname
    obtain ⟨pn, hpn, rfl⟩ := hname
    exact hapart pn hpn
  | _ => exact absurd hr (fun h => h)

theorem createVolume_listable {chunkSize : ℕ} {pin : Option Bytes} {mode : EncMode} {v : VolumeId}
    {volumeName : Option String} (hl : tx.db.Listable)
    (h : createVolume C E tx volumeName chunkSize pin mode = .ok (tx', v)) : tx'.db.Listable := by
  obtain ⟨-, hfresh, -, hnodes, -, hagree, -⟩ := createVolume_shape h
  have hplacements : tx'.db.placements = tx.db.placements := by
    rw [Db.placements, Db.activeEdges, hagree.edges (by simp)]
    rfl
  refine ⟨hplacements ▸ hl.distinct, ?_, ?_⟩
  · rw [hplacements]
    exact hl.named
  · rw [hplacements]
    intro q hq
    have htitled := hl.titled q hq
    obtain ⟨name, hname, -⟩ := id htitled
    have hne : (foundedRoot E tx).nodeId ≠ q.2.1 := by
      intro heq
      have hnone : tx.db.node? q.2.1 = none := heq ▸ hfresh
      rw [Db.nodeName?, hnone] at hname
      cases hname
    have hnode : tx'.db.node? q.2.1 = tx.db.node? q.2.1 := by
      rw [Db.node?, hnodes]
      exact lookup_append_of_ne hne
    exact htitled.of_same (congrArg (Option.map NodeRow.name) hnode)
      (congrArg (Option.map NodeRow.type) hnode)

theorem openWrite_listable {mode : WriteMode} {supplied : Option LockId} {d : Descriptor}
    (hl : tx.db.Listable) (hapart : Legible path)
    (h : openWrite C E k tx mount path mode supplied = .ok (tx', d)) :
    tx'.db.Listable := by
  rcases openWrite_names h with hsettled | ⟨m, p, tx₁, -, hp, hborn, hlocked⟩
  · exact Listable.settled hl hsettled
  · exact Listable.settled (Listable.born hl hborn (isName_of_resolveParent hapart hp)) hlocked

theorem exec_listable (hs : s.db.Sound) (hl : s.db.Listable)
    (hapart : NamesApart C M s ⟨E, conn, op⟩) :
    (exec C M E s conn op).1.db.Listable := by
  by_cases hop : op.naming
  case neg => exact Listable.settled hl (exec_settled hs hop)
  cases op with
  | request mount r =>
    refine transact_db (P := fun db => db.Listable) (fun _ _ => rfl) hl ?_
    intro tx a h
    have hbegin : s.begin.db.Listable := hl
    exact request_listable hbegin hapart h
  | createVolume name chunkSize pin mode =>
    refine transact_db (P := fun db => db.Listable) (fun _ _ => rfl) hl ?_
    intro tx a h
    have hbegin : s.begin.db.Listable := hl
    exact createVolume_listable hbegin h
  | openWrite mount path mode lock =>
    refine transact_db (P := fun db => db.Listable) (fun _ _ => rfl) hl ?_
    intro tx a h
    have hbegin : s.begin.db.Listable := hl
    exact openWrite_listable hbegin hapart h
  | _ => exact absurd hop (fun h => h)

theorem empty_listable : Db.Listable {} := by
  refine ⟨List.nodup_nil, ?_, ?_⟩
  · intro p hp
    cases hp
  · intro p hp
    cases hp

theorem Reaches.listable (h : Reaches C M (NamesApart C M) s) : s.db.Listable := by
  have hboth : s.db.Sound ∧ s.db.Listable := by
    refine GuardedRuns.Run.invariant (P := fun s : Sys => s.db.Sound ∧ s.db.Listable) ?_ h
      ⟨empty_sound, empty_listable⟩
    intro s l hguard hs
    exact ⟨step_sound hs.1, exec_listable hs.1 hs.2 hguard⟩
  exact hboth.2

/-! ### Listing and resolution -/

/-- A container's listing says what its paths resolve to: one visible row a name, that
of the node the joined path finds, whatever legible path leads to the container. -/
structure ListingAgrees (db : Db) (c : NodeId) : Prop where
  single : ∀ name, ((db.listChildren c).filter (fun r => r.visible ∧ r.name = name)).length ≤ 1
  named : ∀ r ∈ db.listChildren c, IsName r.name
  agrees : ∀ a path name n, Legible path → resolve db a path = .ok ⟨c, .container⟩ → IsName name →
    ((∃ t, resolve db a (path ++ "/" ++ name) = .ok ⟨n, t⟩) ↔
      ∃ r ∈ db.listChildren c, r.visible = true ∧ r.name = name ∧ r.nodeId = n)

/-- The visible entries of a listing can be opened by their own paths. -/
def ListingOpens (db : Db) : Prop :=
  ∀ E k mount path entries, Legible path → list E k db mount path = .ok entries → ∀ e ∈ entries,
    e.visible = true →
    ∃ m, requireMount E k db mount false = .ok m ∧ resolve db m.mountPoint e.path =
    .ok ⟨e.node, e.type⟩

theorem Listable.agrees (hl : db.Listable) (c : NodeId) : ListingAgrees db c := by
  refine ⟨visible_atMostOne hl.distinct c, ?_, ?_⟩
  · intro r hr
    obtain ⟨e, he, -, hit, -, rfl⟩ := mem_directoryListing.mp (mem_listChildren.mp hr)
    exact hl.named _ (placement_mem_placements he)
  · intro a path name n hlegible hc hseg
    have hsplit : splitPath (path ++ "/" ++ name) = splitPath path ++ [name] :=
      splitPath_join hseg.1
    constructor
    · intro h
      obtain ⟨t, ht⟩ := h
      obtain ⟨hit, hfound, hid, -⟩ := (resolve_child hlegible hseg.2 hc hsplit).mp ht
      obtain ⟨r, hr, hvisible, hname, hnode⟩ := resolveSegment_iff_listed.mp hfound
      exact ⟨r, hr, hvisible, hname, (Db.nodeId_of_node? hnode).symm.trans hid⟩
    · intro h
      obtain ⟨r, hr, hvisible, hname, rfl⟩ := h
      obtain ⟨e, -, -, hit, hto, heq⟩ := mem_directoryListing.mp (mem_listChildren.mp hr)
      have hid : r.nodeId = e.toId := by rw [heq, Db.nodeId_of_node? hto]
      have hfound : db.resolveSegment c name = some hit :=
        resolveSegment_iff_listed.mpr ⟨r, hr, hvisible, hname, by rw [hid, hto]⟩
      exact ⟨hit.type,
        (resolve_child hlegible hseg.2 hc hsplit).mpr ⟨hit, hfound, by rw [heq], rfl⟩⟩

theorem Listable.opens (hl : db.Listable) : ListingOpens db := by
  intro E k mount path entries hlegible h e he hvisible
  simp only [list, bind_eq_ok, pure_eq_ok, refuse_eq_ok, decide_eq_false_iff_not, not_not] at h
  obtain ⟨m, hm, found, hfound, u, htype, rfl⟩ := h
  obtain ⟨r, hr, rfl⟩ := List.mem_map.mp he
  obtain ⟨edge, hedge, -, hit, hto, heq⟩ := mem_directoryListing.mp (mem_listChildren.mp hr)
  have hseg : IsName r.name := by
    rw [heq]
    exact hl.named _ (placement_mem_placements hedge)
  have hid : r.nodeId = edge.toId := by rw [heq, Db.nodeId_of_node? hto]
  have hfound' : db.resolveSegment found.node r.name = some hit :=
    resolveSegment_iff_listed.mpr ⟨r, hr, hvisible, rfl, by rw [hid, hto]⟩
  have hcontainer : resolve db m.mountPoint path = .ok ⟨found.node, .container⟩ := by
    rw [hfound, ← htype]
  refine ⟨m, hm, (resolve_child hlegible hseg.2 hcontainer (splitPath_entryPath hseg.1 rfl)).mpr
    ⟨hit, hfound', ?_, ?_⟩⟩
  · rw [DirEntry.ofRow, heq]
  · rw [DirEntry.ofRow, heq]

/-- NODE-5: in every state of a run that gives only names a path can hold, and places
no node twice under one name in one container, listings and paths agree. -/
theorem listing_agrees_with_resolution (h : Reaches C M (NamesApart C M) s) :
    (∀ c, ListingAgrees s.db c) ∧ ListingOpens s.db := by
  have hl := h.listable
  exact ⟨Listable.agrees hl, Listable.opens hl⟩

/-- A leaf linked, renamed and moved about. -/
def linkedRun : List Label :=
  [⟨.counting 0, 0, .createVolume none 128 none .none⟩,
    ⟨.counting 1, 0, .mount { volume := 0 }⟩,
    ⟨.counting 2, 0, .request 1 (.createContainer "a")⟩,
    ⟨.counting 4, 0, .request 1 (.createEntry "a/x" [7])⟩,
    ⟨.counting 6, 0, .request 1 (.link "a/x" "y")⟩,
    ⟨.counting 8, 0, .request 1 (.rename "a/x" "z")⟩,
    ⟨.counting 10, 0, .request 1 (.move "a/z" "a/y")⟩]

theorem listing_agrees_with_resolution_linked :
    let db := (linkedRun.foldl (step Crypto.xorStream Msgpack.refusing) {}).db
    (∀ c, ListingAgrees db c) ∧ ListingOpens db := by
  have hguards : GuardedRuns.Guards (step Crypto.xorStream Msgpack.refusing)
      (NamesApart Crypto.xorStream Msgpack.refusing) {} linkedRun := by
    decide +kernel
  exact listing_agrees_with_resolution (reaches_foldl hguards)

/-- A second placement renamed onto the first is shown twice, and a name with a
separator is shown and leads nowhere. -/
theorem listing_shows_twins :
    ∃ s, Reaches Crypto.xorStream Msgpack.refusing (fun _ _ => True) s ∧
      ((s.db.listChildren 0).filter (fun r => r.visible ∧ r.name = "x")).length = 2 ∧
      resolve s.db 0 "" = .ok ⟨0, .container⟩ ∧
      (∃ r ∈ s.db.listChildren 0, r.visible = true ∧ r.name = "p/q") ∧
      resolve s.db 0 ("" ++ "/" ++ "p/q") = .error .notFound := by
  let ls : List Label :=
    [⟨.counting 0, 0, .createVolume none 128 none .none⟩,
      ⟨.counting 1, 0, .mount { volume := 0 }⟩,
      ⟨.counting 2, 0, .request 1 (.createEntry "x" [7])⟩,
      ⟨.counting 4, 0, .request 1 (.link "x" "y")⟩,
      ⟨.counting 6, 0, .request 1 (.rename "y" "x")⟩,
      ⟨.counting 8, 0, .request 1 (.createEntry "z" [8])⟩,
      ⟨.counting 10, 0, .request 1 (.rename "z" "p/q")⟩]
  have hguards : GuardedRuns.Guards (step Crypto.xorStream Msgpack.refusing)
      (fun _ _ => True) {} ls := by
    decide +kernel
  exact ⟨_, reaches_foldl hguards,
    by decide +kernel, by decide +kernel, by decide +kernel, by decide +kernel⟩

end Aloelite
