import Aloelite.ChildLookup
import Mathlib.Data.List.TakeWhile

/-! Path resolution: `split_path`, the recursive query `resolve_path` with its
row list as the error report, `resolve` and `resolve_parent`. -/
namespace Aloelite

open Fallible

/-- The non-empty segments of a path; '.' and '..' are ordinary names. -/
def splitPath (path : String) : List String :=
  ((path.toList.splitOn '/').filter (fun seg => seg ≠ [])).map String.ofList

structure Resolved where
  node : NodeId
  type : NodeType
  deriving DecidableEq, Repr

/-- A row of the query `resolve_path`, one for each segment consumed. -/
structure WalkRow where
  idx : ℕ
  seg : String
  parentId : NodeId
  hit : Option NodeRow
  deriving DecidableEq, Repr

/-! ### The text functions of the query -/

/-- What `substr` sees of a text: SQLite's stops at the first NUL. -/
def upToNul (text : List Char) : List Char := text.takeWhile (· ≠ '\x00')

/-- `instr(text, '/')`: the place of the first separator counted from one, 0 without one.
It reads past a NUL. -/
def instrSeparator (text : List Char) : ℕ :=
  ((text.findIdx? (fun c => decide (c = '/'))).map (· + 1)).getD 0

/-- `substr(rest, 1, instr(rest, '/') - 1)` -/
def firstSegment (rest : List Char) : String :=
  String.ofList ((upToNul rest).take (instrSeparator rest - 1))

/-- `substr(rest, instr(rest, '/') + 1)` -/
def afterSegment (rest : List Char) : List Char := (upToNul rest).drop (instrSeparator rest)

namespace Db

/-- The recursive part of `resolve_path` after `idx` rows, standing at `node`
with `rest` of the path unread. A row is added while something is left to read
and the last hit is a container. The root's type is not looked up. -/
def walkRows (db : Db) : ℕ → ℕ → NodeId → NodeType → List Char → List WalkRow
  | 0, _, _, _, _ => []
  | fuel + 1, idx, node, type, rest =>
    if rest ≠ [] ∧ type = .container then
      let seg := firstSegment rest
      match db.walkHit node seg with
      | none => [⟨idx + 1, seg, node, none⟩]
      | some hit => ⟨idx + 1, seg, node, some hit⟩ ::
          db.walkRows fuel (idx + 1) hit.nodeId hit.type (afterSegment rest)
    else []

/-- `'/'.join(segments)`, with the closing separator the query appends. -/
def joinSegments (segments : List String) : List Char :=
  segments.flatMap (fun seg => seg.toList ++ ['/'])

/-- How many nodes the volume of `root` has. -/
def nodesBeside (db : Db) (root : NodeId) : ℕ :=
  (db.nodes.filter (fun r =>
    (db.node? r.nodeId).map NodeRow.volumeId = (db.node? root).map NodeRow.volumeId)).length

/-- The template `resolve_path`. A row reads at least one character, or it looks up the
empty name that a cut text leaves, which takes it to one more node of the volume. -/
def resolvePath (db : Db) (root : NodeId) (segments : List String) : List WalkRow :=
  db.walkRows ((joinSegments segments).length + db.nodesBeside root) 0 root .container
    (joinSegments segments)

end Db

/-- How `_walk` reads the rows: the last one carries the answer or the
diagnosis. -/
def readLastRow (rows : List WalkRow) (segmentCount : ℕ) : Except FsError Resolved :=
  match rows.getLast? with
  | none => .error .corrupt
  | some last =>
    match last.hit with
    | none => .error .notFound
    | some hit =>
      if last.idx < segmentCount then .error (.notAContainer hit.nodeId)
      else .ok ⟨hit.nodeId, hit.type⟩

def walk (db : Db) (root : NodeId) (segments : List String) : Except FsError Resolved :=
  readLastRow (db.resolvePath root segments) segments.length

def resolve (db : Db) (mountPoint : NodeId) (path : String) : Except FsError Resolved :=
  match splitPath path with
  | [] =>
    match db.node? mountPoint with
    | none => .error .notFound
    | some row => .ok ⟨mountPoint, row.type⟩
  | segments => walk db mountPoint segments

structure Parent where
  container : NodeId
  name : String
  deriving DecidableEq, Repr

/-- The parent container and the final name of a path; the name itself is not
looked up. -/
def resolveParent (db : Db) (mountPoint : NodeId) (path : String) : Except FsError Parent :=
  match splitPath path with
  | [] => .error .notFound
  | segments@(_ :: _) =>
    match segments.dropLast with
    | [] => .ok ⟨mountPoint, segments.getLastD ""⟩
    | head => do
      let found ← walk db mountPoint head
      refuse (found.type ≠ .container) (.notAContainer found.node)
      return ⟨found.node, segments.getLastD ""⟩

/-! ### The walk as a fold -/

/-- One child lookup after another, failing at the segment where the query
stops. -/
def descend (db : Db) : NodeId → NodeType → List String → Except FsError Resolved
  | node, type, [] => .ok ⟨node, type⟩
  | node, type, seg :: segs =>
    if type = .container then
      match db.resolveSegment node seg with
      | none => .error .notFound
      | some hit => descend db hit.nodeId hit.type segs
    else .error (.notAContainer node)

/-- A segment as `split_path` yields it. -/
def IsSegment (seg : String) : Prop := seg.toList ≠ [] ∧ '/' ∉ seg.toList

/-- A text that `substr` sees to its end. -/
def NulFree (text : String) : Prop := '\x00' ∉ text.toList

/-- A name that a path can hold and the query can read. -/
def IsName (name : String) : Prop := IsSegment name ∧ NulFree name

instance (seg : String) : Decidable (IsSegment seg) :=
  inferInstanceAs (Decidable (seg.toList ≠ [] ∧ '/' ∉ seg.toList))

instance (text : String) : Decidable (NulFree text) :=
  inferInstanceAs (Decidable ('\x00' ∉ text.toList))

instance (name : String) : Decidable (IsName name) :=
  inferInstanceAs (Decidable (IsSegment name ∧ NulFree name))

/-- A path whose segments the query reads to their ends. -/
def Legible (path : String) : Prop := ∀ seg ∈ splitPath path, NulFree seg

instance (path : String) : Decidable (Legible path) :=
  inferInstanceAs (Decidable (∀ seg ∈ splitPath path, NulFree seg))

/-- The pieces of a list hold no separator, and nothing that the list does not. -/
theorem mem_piece_splitOnPPrepend {α : Type*} {p : α → Bool} (xs acc : List α)
    (hacc : ∀ a ∈ acc, p a = false) :
    ∀ piece ∈ xs.splitOnPPrepend p acc, ∀ a ∈ piece, p a = false ∧ (a ∈ xs ∨ a ∈ acc) := by
  induction xs generalizing acc with
  | nil =>
    intro piece hpiece a ha
    have hp : piece = acc.reverse := by simpa using hpiece
    have hmem : a ∈ acc := by simpa [hp] using ha
    exact ⟨hacc a hmem, Or.inr hmem⟩
  | cons x xs ih =>
    intro piece hpiece a ha
    rw [List.splitOnPPrepend_cons_eq_if] at hpiece
    by_cases hx : p x = true
    · rw [if_pos hx, ← List.splitOnPPrepend_nil_right] at hpiece
      rcases List.mem_cons.mp hpiece with rfl | htail
      · have hmem : a ∈ acc := by simpa using ha
        exact ⟨hacc a hmem, Or.inr hmem⟩
      · obtain ⟨hp, hfrom⟩ := ih [] (by simp) piece htail a ha
        simp only [List.not_mem_nil, or_false] at hfrom
        exact ⟨hp, Or.inl (List.mem_cons_of_mem _ hfrom)⟩
    · rw [if_neg hx] at hpiece
      have hacc' : ∀ b ∈ x :: acc, p b = false := by
        intro b hb
        rcases List.mem_cons.mp hb with rfl | hb
        · simpa using hx
        · exact hacc b hb
      obtain ⟨hp, hfrom⟩ := ih (x :: acc) hacc' piece hpiece a ha
      refine ⟨hp, ?_⟩
      simp only [List.mem_cons] at hfrom ⊢
      tauto

theorem mem_segment {path seg : String} (hseg : seg ∈ splitPath path) :
    seg.toList ≠ [] ∧ ∀ c ∈ seg.toList, c ≠ '/' ∧ c ∈ path.toList := by
  obtain ⟨cs, hcs, rfl⟩ := List.mem_map.mp hseg
  obtain ⟨hmem, hne⟩ := List.mem_filter.mp hcs
  rw [List.splitOn, List.splitOnP_eq_splitOnPPrepend] at hmem
  have hpiece := mem_piece_splitOnPPrepend path.toList [] (by simp) cs hmem
  rw [String.toList_ofList]
  refine ⟨by simpa using hne, ?_⟩
  intro c hc
  obtain ⟨hsep, hfrom⟩ := hpiece c hc
  exact ⟨by simpa using hsep, by simpa using hfrom⟩

theorem splitPath_isSegment (path : String) : ∀ seg ∈ splitPath path, IsSegment seg :=
  fun _ hseg => ⟨(mem_segment hseg).1, fun hsep => ((mem_segment hseg).2 _ hsep).1 rfl⟩

theorem Legible.isName {path : String} (h : Legible path) : ∀ seg ∈ splitPath path, IsName seg :=
  fun seg hseg => ⟨splitPath_isSegment path seg hseg, h seg hseg⟩

/-- A legible path goes on by a name. -/
theorem Legible.snoc {path child name : String} (h : Legible path) (hname : NulFree name)
    (hsplit : splitPath child = splitPath path ++ [name]) : Legible child := by
  intro seg hseg
  rw [hsplit, List.mem_append, List.mem_singleton] at hseg
  rcases hseg with hseg | rfl
  · exact h seg hseg
  · exact hname

theorem upToNul_eq_self {text : List Char} (h : '\x00' ∉ text) : upToNul text = text := by
  rw [upToNul, List.takeWhile_eq_self_iff]
  intro c hc
  exact decide_eq_true (fun heq => h (heq ▸ hc))

theorem instrSeparator_segment {seg : List Char} (hs : '/' ∉ seg) (rest : List Char) :
    instrSeparator (seg ++ '/' :: rest) = seg.length + 1 := by
  have hnone : seg.findIdx? (fun c => decide (c = '/')) = none := by
    rw [List.findIdx?_eq_none_iff]
    intro c hc
    exact decide_eq_false (fun heq => hs (heq ▸ hc))
  rw [instrSeparator, List.findIdx?_append, hnone, List.findIdx?_cons]
  simp

/-- A cut behind a name that `substr` sees to its end. -/
theorem upToNul_segment {seg : List Char} (hnul : '\x00' ∉ seg) (rest : List Char) :
    upToNul (seg ++ '/' :: rest) = seg ++ '/' :: upToNul rest := by
  rw [upToNul, List.takeWhile_append_of_pos, List.takeWhile_cons_of_pos (by decide)]
  · rfl
  · intro c hc
    exact decide_eq_true (fun heq => hnul (heq ▸ hc))

/-- The name that a text starts with. -/
theorem firstSegment_segment {seg : String} (hs : IsName seg) (rest : List Char) :
    firstSegment (seg.toList ++ '/' :: rest) = seg := by
  rw [firstSegment, upToNul_segment hs.2, instrSeparator_segment hs.1.2, Nat.add_sub_cancel,
    List.take_left, String.ofList_toList]

theorem afterSegment_segment {seg : String} (hs : IsName seg) (rest : List Char) :
    afterSegment (seg.toList ++ '/' :: rest) = upToNul rest := by
  rw [afterSegment, upToNul_segment hs.2, instrSeparator_segment hs.1.2, List.drop_append]
  simp

theorem joinSegments_cons (seg : String) (segs : List String) :
    Db.joinSegments (seg :: segs) = seg.toList ++ '/' :: Db.joinSegments segs := by
  simp [Db.joinSegments]

theorem nul_not_mem_joinSegments {segs : List String} (h : ∀ seg ∈ segs, NulFree seg) :
    '\x00' ∉ Db.joinSegments segs := by
  simp only [Db.joinSegments, List.mem_flatMap, List.mem_append, List.mem_singleton, not_exists,
    not_and, not_or]
  intro seg hseg
  exact ⟨h seg hseg, by decide⟩

/-- Joined segments split into themselves. -/
theorem splitPath_joinSegments {segs : List String} (hsegs : ∀ seg ∈ segs, IsSegment seg) :
    splitPath (String.ofList (Db.joinSegments segs)) = segs := by
  rw [splitPath, String.toList_ofList]
  induction segs with
  | nil => simp [Db.joinSegments]
  | cons seg segs ih =>
    have hseg := hsegs seg List.mem_cons_self
    rw [joinSegments_cons, List.splitOn_append_cons_self_of_not_mem hseg.2,
      List.filter_cons_of_pos (by simpa using hseg.1), List.map_cons, String.ofList_toList,
      ih (fun s hs => hsegs s (List.mem_cons_of_mem _ hs))]

variable {db : Db}

/-- A walk whose last row hits went down one child after another, by the names its rows
looked up. Induction on the rows. -/
theorem walkRows_descends {fuel idx : ℕ} {node : NodeId} {type : NodeType} {rest : List Char}
    {last : WalkRow} {hit : NodeRow}
    (h : (db.walkRows fuel idx node type rest).getLast? = some last) (hhit : last.hit = some hit) :
    ∃ names, names ≠ [] ∧ descend db node type names = .ok ⟨hit.nodeId, hit.type⟩ := by
  induction fuel generalizing idx node type rest with
  | zero => simp [Db.walkRows] at h
  | succ fuel ih =>
    rw [Db.walkRows] at h
    by_cases hgo : rest ≠ [] ∧ type = .container
    · rw [if_pos hgo] at h
      cases hfound : db.walkHit node (firstSegment rest) with
      | none =>
        simp only [hfound, List.getLast?_singleton, Option.some_inj] at h
        rw [← h] at hhit
        cases hhit
      | some first =>
        have hstep : ∀ names, descend db node type (firstSegment rest :: names) =
            descend db first.nodeId first.type names := by
          intro names
          rw [descend, if_pos hgo.2, ← Db.walkHit_eq_resolveSegment, hfound]
        simp only [hfound] at h
        by_cases hnil : db.walkRows fuel (idx + 1) first.nodeId first.type (afterSegment rest) = []
        · rw [hnil, List.getLast?_singleton, Option.some_inj] at h
          obtain rfl : first = hit := Option.some.inj (by rw [← hhit, ← h])
          exact ⟨[firstSegment rest], List.cons_ne_nil _ _, hstep []⟩
        · rw [List.getLast?_cons_of_ne_nil hnil] at h
          obtain ⟨names, -, hd⟩ := ih h
          exact ⟨firstSegment rest :: names, List.cons_ne_nil _ _, (hstep names).trans hd⟩
    · rw [if_neg hgo] at h
      cases h

/-- Whatever path leads somewhere, it leads down from its start. -/
theorem walk_descends {root : NodeId} {segs : List String} {found : Resolved}
    (h : walk db root segs = .ok found) :
    ∃ names, names ≠ [] ∧ descend db root .container names = .ok found := by
  rw [walk, readLastRow] at h
  cases hlast : (db.resolvePath root segs).getLast? with
  | none => simp [hlast] at h
  | some last =>
    cases hhit : last.hit with
    | none => simp [hlast, hhit] at h
    | some hit =>
      simp only [hlast, hhit] at h
      split at h
      next => cases h
      next =>
        obtain rfl := Except.ok.inj h
        exact walkRows_descends hlast hhit

theorem resolve_descends {mountPoint : NodeId} {path : String} {found : Resolved}
    (h : resolve db mountPoint path = .ok found) :
    (found.node = mountPoint ∧ (db.node? mountPoint).map NodeRow.type = some found.type) ∨
      ∃ names, names ≠ [] ∧ descend db mountPoint .container names = .ok found := by
  rw [resolve] at h
  cases hsplit : splitPath path with
  | nil =>
    cases hnode : db.node? mountPoint with
    | none => simp [hsplit, hnode] at h
    | some row =>
      simp only [hsplit, hnode, Except.ok.injEq] at h
      rw [← h]
      exact Or.inl ⟨rfl, rfl⟩
  | cons seg segs =>
    rw [hsplit] at h
    exact Or.inr (walk_descends h)

theorem resolveParent_descends {mountPoint : NodeId} {path : String} {p : Parent}
    (h : resolveParent db mountPoint path = .ok p) :
    splitPath path ≠ [] ∧ p.name = (splitPath path).getLastD "" ∧
      ∃ names, descend db mountPoint .container names = .ok ⟨p.container, .container⟩ := by
  rw [resolveParent] at h
  cases hsplit : splitPath path with
  | nil => simp [hsplit] at h
  | cons seg segs =>
    simp only [hsplit] at h
    cases hdrop : (seg :: segs).dropLast with
    | nil =>
      simp only [hdrop, Except.ok.injEq] at h
      rw [← h]
      exact ⟨List.cons_ne_nil _ _, rfl, [], rfl⟩
    | cons s ss =>
      simp only [hdrop, bind_eq_ok, refuse_eq_ok, pure_eq_ok] at h
      obtain ⟨⟨n, t⟩, hwalk, -, htype, rfl⟩ := h
      obtain ⟨names, -, hd⟩ := walk_descends hwalk
      obtain rfl : t = .container := by simpa using htype
      exact ⟨List.cons_ne_nil _ _, rfl, names, hd⟩

/-- The rows of the query from any point of the walk diagnose what the fold
over the remaining segments returns. Induction on the segments left; a leaf
with a successor is where the query stops short. -/
theorem readLastRow_walkRows (db : Db) (segs : List String) (hsegs : ∀ seg ∈ segs, IsName seg)
    (hne : segs ≠ []) (fuel idx : ℕ) (node : NodeId)
    (hfuel : (Db.joinSegments segs).length ≤ fuel) :
    db.walkRows fuel idx node .container (Db.joinSegments segs) ≠ [] ∧
      readLastRow (db.walkRows fuel idx node .container (Db.joinSegments segs))
        (idx + segs.length) = descend db node .container segs := by
  induction segs generalizing fuel idx node with
  | nil => exact absurd rfl hne
  | cons seg segs ih =>
    have hseg : IsName seg := hsegs seg List.mem_cons_self
    have hjoin := joinSegments_cons seg segs
    have hnul : '\x00' ∉ Db.joinSegments segs :=
      nul_not_mem_joinSegments (fun s hs => (hsegs s (List.mem_cons_of_mem _ hs)).2)
    have hlen : (Db.joinSegments (seg :: segs)).length =
        seg.toList.length + (Db.joinSegments segs).length + 1 := by
      rw [hjoin, List.length_append, List.length_cons]
      omega
    obtain ⟨fuel, rfl⟩ : ∃ f, fuel = f + 1 := ⟨fuel - 1, by omega⟩
    have hrest : seg.toList ++ '/' :: Db.joinSegments segs ≠ [] := by simp
    simp only [hjoin, Db.walkRows, hrest, ne_eq, not_false_eq_true, and_self, ↓reduceIte]
    rw [firstSegment_segment hseg, afterSegment_segment hseg, upToNul_eq_self hnul,
      Db.walkHit_eq_resolveSegment]
    cases hhit : db.resolveSegment node seg with
    | none => simp [descend, hhit, readLastRow]
    | some hit =>
      simp only [descend, hhit, ↓reduceIte]
      refine ⟨by simp, ?_⟩
      by_cases hlast : segs = []
      · have hnil : db.walkRows fuel (idx + 1) hit.nodeId hit.type (Db.joinSegments segs) = [] := by
          cases fuel <;> simp [hlast, Db.joinSegments, Db.walkRows]
        rw [hnil]
        simp [hlast, readLastRow, descend]
      by_cases htype : hit.type = .container
      · obtain ⟨hrows, hread⟩ := ih (fun s hs => hsegs s (List.mem_cons_of_mem _ hs)) hlast fuel
          (idx + 1) hit.nodeId (by omega)
        rw [htype, ← hread]
        simp only [readLastRow, List.getLast?_cons_of_ne_nil hrows, List.length_cons]
        simp only [show idx + 1 + segs.length = idx + (segs.length + 1) by omega]
      · have hnil : db.walkRows fuel (idx + 1) hit.nodeId hit.type (Db.joinSegments segs) = [] := by
          cases fuel <;> simp [htype, Db.walkRows]
        have hpos : 0 < segs.length := List.length_pos_iff.mpr hlast
        have hdesc : descend db hit.nodeId hit.type segs = .error (.notAContainer hit.nodeId) := by
          cases segs with
          | nil => exact absurd rfl hlast
          | cons s ss => simp [descend, htype]
        simp [hnil, hdesc, readLastRow, hpos]

/-- The one-query walk is the segment fold, over names without NUL. -/
theorem walk_eq_descend (root : NodeId) {segs : List String}
    (hsegs : ∀ seg ∈ segs, IsName seg) (hne : segs ≠ []) :
    walk db root segs = descend db root .container segs := by
  have h := (readLastRow_walkRows db segs hsegs hne _ 0 root
    (Nat.le_add_right _ (db.nodesBeside root))).2
  rwa [Nat.zero_add] at h

/-- `resolve` succeeds on a legible path exactly when the fold does; the empty path is
the mount point itself with its own type. -/
theorem resolve_eq_ok {mountPoint : NodeId} {path : String} {found : Resolved}
    (hlegible : Legible path) :
    resolve db mountPoint path = .ok found ↔
      (splitPath path = [] ∧ found.node = mountPoint ∧
        (db.node? mountPoint).map NodeRow.type = some found.type) ∨
      (splitPath path ≠ [] ∧
        descend db mountPoint .container (splitPath path) = .ok found) := by
  have hsegs := hlegible.isName
  rw [resolve]
  cases hsplit : splitPath path with
  | nil =>
    cases hnode : db.node? mountPoint with
    | none => simp
    | some row =>
      obtain ⟨n, t⟩ := found
      simp
      tauto
  | cons seg segs =>
    rw [hsplit] at hsegs
    change walk db mountPoint (seg :: segs) = .ok found ↔ _
    rw [walk_eq_descend _ hsegs (by simp)]
    simp

theorem resolveParent_eq_ok {mountPoint : NodeId} {path : String} {p : Parent}
    (hlegible : Legible path) :
    resolveParent db mountPoint path = .ok p ↔
      splitPath path ≠ [] ∧ p.name = (splitPath path).getLastD "" ∧
        descend db mountPoint .container (splitPath path).dropLast =
          .ok ⟨p.container, .container⟩ := by
  have hsegs := hlegible.isName
  rw [resolveParent]
  obtain ⟨c, nm⟩ := p
  cases hsplit : splitPath path with
  | nil => simp
  | cons seg segs =>
    have hhead : ∀ s ∈ (seg :: segs).dropLast, IsName s := by
      intro s hs
      exact hsegs s (hsplit ▸ List.mem_of_mem_dropLast hs)
    cases hdrop : (seg :: segs).dropLast with
    | nil =>
      simp only [hdrop, descend, Except.ok.injEq, Parent.mk.injEq, Resolved.mk.injEq]
      tauto
    | cons s ss =>
      rw [hdrop] at hhead
      simp only [hdrop]
      rw [walk_eq_descend _ hhead (by simp)]
      simp only [bind_eq_ok, refuse_eq_ok, pure_eq_ok, Parent.mk.injEq]
      constructor
      · rintro ⟨⟨n, t⟩, hd, -, ht, rfl, rfl⟩
        have ht' : t = .container := by simpa using ht
        exact ⟨by simp, rfl, by rw [hd, ht']⟩
      · rintro ⟨-, rfl, hd⟩
        exact ⟨⟨c, .container⟩, hd, (), by simp, rfl, rfl⟩

/-! ### What a path depends on -/

theorem walkHit_congr {db db' : Db} (hnodes : db'.nodes = db.nodes) (hedges : db'.edges = db.edges)
    (container : NodeId) (seg : String) : db'.walkHit container seg = db.walkHit container seg := by
  have hnode : db'.node? = db.node? := by
    funext n
    rw [Db.node?, Db.node?, hnodes]
  simp only [Db.walkHit, Db.placedUnder, Db.activeEdges, hnode, hedges]

theorem walkRows_congr {db db' : Db} (hnodes : db'.nodes = db.nodes) (hedges : db'.edges = db.edges)
    (fuel idx : ℕ) (node : NodeId) (type : NodeType) (rest : List Char) :
    db'.walkRows fuel idx node type rest = db.walkRows fuel idx node type rest := by
  induction fuel generalizing idx node type rest with
  | zero => rfl
  | succ fuel ih => simp only [Db.walkRows, walkHit_congr hnodes hedges, ih]

theorem resolve_congr {db db' : Db} (hnodes : db'.nodes = db.nodes)
    (hedges : db'.edges = db.edges) (mountPoint : NodeId) (path : String) :
    resolve db' mountPoint path = resolve db mountPoint path := by
  have hnode : ∀ n, db'.node? n = db.node? n := by
    intro n
    rw [Db.node?, Db.node?, hnodes]
  have hbeside : db'.nodesBeside mountPoint = db.nodesBeside mountPoint := by
    simp only [Db.nodesBeside, hnodes, hnode]
  have hwalk : ∀ segs, walk db' mountPoint segs = walk db mountPoint segs := by
    intro segs
    rw [walk, walk, Db.resolvePath, Db.resolvePath, hbeside, walkRows_congr hnodes hedges]
  rw [resolve, resolve, hnode]
  cases splitPath path with
  | nil => rfl
  | cons seg segs => exact hwalk _

end Aloelite
