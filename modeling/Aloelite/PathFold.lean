import Aloelite.Descent
import Aloelite.Engine

/-! The one-query walk against the segment fold, with what each of them reports: the
segment a walk stops at, and why. -/
namespace Aloelite

open Fallible

variable {db : Db} {start node : NodeId} {segs : List String} {path : String}

/-- Where a walk stands after some segments. -/
structure Standing where
  depth : ℕ
  seg : String
  node : NodeId
  type : NodeType
  deriving DecidableEq, Repr

/-- Why a walk stopped, with the segment it names and its place in the path:
`NotFound(container=..., name=...)`, or `NotAContainer(node=...)` at a leaf that has
a successor. `noRows` is the answer to a query without rows. -/
inductive WalkFault where
  | missing (depth : ℕ) (container : NodeId) (name : String)
  | leaf (depth : ℕ) (name : String) (node : NodeId)
  | noRows
  deriving DecidableEq, Repr

/-- The error kind of a fault. -/
def WalkFault.raised : WalkFault → FsError
  | missing _ _ _ => .notFound
  | leaf _ _ node => .notAContainer node
  | noRows => .corrupt

def Standing.resolved (here : Standing) : Resolved := ⟨here.node, here.type⟩

/-- What a caller gets of a walk. -/
def answer (r : Except WalkFault Standing) : Except FsError Resolved :=
  match r with
  | .error e => .error e.raised
  | .ok here => .ok here.resolved

/-- `resolve_segment` below where a walk stands. -/
def Db.into (db : Db) (here : Standing) (seg : String) : Except WalkFault Standing :=
  if here.type = .container then
    match db.resolveSegment here.node seg with
    | none => .error (.missing (here.depth + 1) here.node seg)
    | some hit => .ok ⟨here.depth + 1, seg, hit.nodeId, hit.type⟩
  else .error (.leaf here.depth here.seg here.node)

/-- `resolve_segment`, folded over segments one at a time. -/
def Db.foldSegments (db : Db) (start : NodeId) (segs : List String) : Except WalkFault Standing :=
  segs.foldlM db.into ⟨0, "", start, .container⟩

/-- `_walk` on the rows of the query, with the texts of its errors. -/
def diagnose (rows : List WalkRow) (segmentCount : ℕ) : Except WalkFault Standing :=
  match rows.getLast? with
  | none => .error .noRows
  | some last =>
    match last.hit with
    | none => .error (.missing last.idx last.parentId last.seg)
    | some hit =>
      if last.idx < segmentCount then .error (.leaf last.idx last.seg hit.nodeId)
      else .ok ⟨last.idx, last.seg, hit.nodeId, hit.type⟩

theorem readLastRow_eq_answer (rows : List WalkRow) (n : ℕ) :
    readLastRow rows n = answer (diagnose rows n) := by
  unfold readLastRow diagnose
  cases rows.getLast? with
  | none => rfl
  | some last =>
    cases hhit : last.hit with
    | none => simp [hhit, answer, WalkFault.raised]
    | some hit =>
      by_cases hlt : last.idx < n
      · simp [hhit, hlt, answer, WalkFault.raised]
      · simp [hhit, hlt, answer, Standing.resolved]

/-- The place and the text a walk ends at: the segment it stands at, or the one a fault names. -/
def named (r : Except WalkFault Standing) : Option (ℕ × String) :=
  match r with
  | .ok here => some (here.depth, here.seg)
  | .error (.missing depth _ name) => some (depth, name)
  | .error (.leaf depth name _) => some (depth, name)
  | .error .noRows => none

/-- The segments that are looked up on the way hold no NUL. -/
def Db.ReadsWhole (db : Db) (node : NodeId) (type : NodeType) : List String → Prop
  | [] => True
  | seg :: segs => type = .container →
      NulFree seg ∧ ∀ hit, db.resolveSegment node seg = some hit →
        db.ReadsWhole hit.nodeId hit.type segs

theorem readsWhole_of_nulFree {type : NodeType} (hnul : ∀ seg ∈ segs, NulFree seg) :
    db.ReadsWhole node type segs := by
  induction segs generalizing node type with
  | nil => trivial
  | cons seg segs ih =>
    intro _
    refine ⟨hnul seg List.mem_cons_self, ?_⟩
    intro hit _
    exact ih (fun s hs => hnul s (List.mem_cons_of_mem _ hs))

/-! ### Cut texts -/

theorem instrSeparator_eq_zero {text : List Char} (hsep : '/' ∉ text) :
    instrSeparator text = 0 := by
  have hnone : text.findIdx? (fun c => decide (c = '/')) = none := by
    rw [List.findIdx?_eq_none_iff]
    intro c hc
    exact decide_eq_false (fun heq => hsep (heq ▸ hc))
  rw [instrSeparator, hnone]
  rfl

theorem nul_not_mem_upToNul (text : List Char) : '\x00' ∉ upToNul text := by
  intro h
  simpa using List.mem_takeWhile_imp h

/-- A cut inside the text in front. -/
theorem upToNul_append {text : List Char} (hnul : '\x00' ∈ text) (rest : List Char) :
    upToNul (text ++ rest) = upToNul text := by
  rw [upToNul, List.takeWhile_append, if_neg]
  · rfl
  · intro hlength
    apply nul_not_mem_upToNul text
    have hall : text.takeWhile (· ≠ '\x00') = text := (List.takeWhile_prefix _).eq_of_length hlength
    rw [upToNul, hall]
    exact hnul

theorem length_upToNul_le (text : List Char) : (upToNul text).length ≤ text.length :=
  (List.takeWhile_prefix _).length_le

/-! ### What each of them names -/

/-- The fold ends at one of the segments, and at its place. -/
theorem foldlM_named (db : Db) (hne : segs ≠ []) (idx : ℕ) (name : String) (node : NodeId) :
    ∃ before seg after, segs = before ++ seg :: after ∧
      named (segs.foldlM db.into ⟨idx, name, node, .container⟩) =
        some (idx + before.length + 1, seg) := by
  induction segs generalizing idx name node with
  | nil => exact absurd rfl hne
  | cons seg segs ih =>
    rw [List.foldlM_cons]
    cases hhit : db.resolveSegment node seg with
    | none =>
      refine ⟨[], seg, segs, rfl, ?_⟩
      simp only [Db.into, hhit, if_true]
      rfl
    | some hit =>
      have hinto : db.into ⟨idx, name, node, .container⟩ seg =
          .ok ⟨idx + 1, seg, hit.nodeId, hit.type⟩ := by
        simp [Db.into, hhit]
      rw [hinto]
      change ∃ before s after, _ ∧
        named (segs.foldlM db.into ⟨idx + 1, seg, hit.nodeId, hit.type⟩) = _
      cases segs with
      | nil => exact ⟨[], seg, [], rfl, rfl⟩
      | cons next segs =>
        by_cases htype : hit.type = .container
        · rw [htype]
          obtain ⟨before, s, after, hsplit, hnamed⟩ :=
            ih (List.cons_ne_nil _ _) (idx + 1) seg hit.nodeId
          refine ⟨seg :: before, s, after, by rw [hsplit]; rfl, ?_⟩
          rw [hnamed, List.length_cons, Nat.add_right_comm idx 1 before.length, Nat.add_assoc idx]
        · refine ⟨[], seg, next :: segs, rfl, ?_⟩
          rw [List.foldlM_cons]
          simp only [Db.into, htype, if_false]
          rfl

/-- A diagnosis names what the last row names. -/
theorem diagnose_named {rows : List WalkRow} {last : WalkRow} (hlast : rows.getLast? = some last)
    (n : ℕ) :
    named (diagnose rows n) = some (last.idx, last.seg) := by
  rw [diagnose, hlast]
  cases hhit : last.hit with
  | none => simp [hhit, named]
  | some hit =>
    by_cases hlt : last.idx < n
    · simp [hhit, hlt, named]
    · simp [hhit, hlt, named]

/-- A text cut in front of its separator goes on under the empty name. -/
theorem walkRows_unseparated {fuel idx : ℕ} {type : NodeType} {rest : List Char}
    (hsep : '/' ∉ rest) :
    ∀ row ∈ db.walkRows fuel idx node type rest, row.seg = "" := by
  induction fuel generalizing idx node type rest with
  | zero =>
    intro row hrow
    cases hrow
  | succ fuel ih =>
    have hinstr : instrSeparator rest = 0 := instrSeparator_eq_zero hsep
    have hseg : firstSegment rest = "" := by
      rw [firstSegment, hinstr]
      rfl
    have hafter : '/' ∉ afterSegment rest := by
      rw [afterSegment, hinstr, List.drop_zero]
      exact fun h => hsep ((List.takeWhile_prefix _).subset h)
    intro row hrow
    rw [Db.walkRows] at hrow
    split at hrow
    · simp only [hseg] at hrow
      split at hrow
      · obtain rfl := List.mem_singleton.mp hrow
        rfl
      · rcases List.mem_cons.mp hrow with rfl | hrow
        · rfl
        · exact ih hafter row hrow
    · cases hrow

theorem walkRows_nil_rest {fuel idx : ℕ} {type : NodeType} :
    db.walkRows fuel idx node type [] = [] := by
  cases fuel with
  | zero => rfl
  | succ fuel => simp [Db.walkRows]

theorem walkRows_ne_nil {fuel idx : ℕ} {rest : List Char} (hrest : rest ≠ []) (hfuel : 0 < fuel) :
    db.walkRows fuel idx node .container rest ≠ [] := by
  obtain ⟨fuel, rfl⟩ : ∃ f, fuel = f + 1 := ⟨fuel - 1, by omega⟩
  simp only [Db.walkRows, hrest, ne_eq, not_false_eq_true, and_self, ↓reduceIte]
  split
  · exact List.cons_ne_nil _ _
  · exact List.cons_ne_nil _ _

/-- A segment with a NUL in it that the query reads first: one row, of the segment's front part. -/
theorem walkRows_cut {seg : String} {fuel idx : ℕ} {rest : List Char} {row : WalkRow}
    (hin : '\x00' ∈ seg.toList)
    (hsep : '/' ∉ seg.toList)
    (hrow : row ∈ db.walkRows fuel idx node .container (seg.toList ++ '/' :: rest)) :
    row.idx = idx + 1 ∧ row.seg = String.ofList (upToNul seg.toList) := by
  have hle := length_upToNul_le seg.toList
  have hfirst : firstSegment (seg.toList ++ '/' :: rest) = String.ofList (upToNul seg.toList) := by
    rw [firstSegment, upToNul_append hin, instrSeparator_segment hsep, Nat.add_sub_cancel,
      List.take_of_length_le hle]
  have hafter : afterSegment (seg.toList ++ '/' :: rest) = [] := by
    rw [afterSegment, upToNul_append hin, instrSeparator_segment hsep, List.drop_eq_nil_iff]
    omega
  cases fuel with
  | zero => cases hrow
  | succ fuel =>
    have hread : seg.toList ++ '/' :: rest ≠ [] := by simp
    simp only [Db.walkRows, hread, ne_eq, not_false_eq_true, and_self, ↓reduceIte, hfirst, hafter,
      walkRows_nil_rest] at hrow
    split at hrow
    · obtain rfl := List.mem_singleton.mp hrow
      exact ⟨rfl, rfl⟩
    · obtain rfl := List.mem_singleton.mp hrow
      exact ⟨rfl, rfl⟩

/-! ### The rows against the fold -/

/-- A segment with a NUL in it, where the query comes to it: the last row names another text. -/
theorem diagnose_cut_ne {seg : String} {fuel idx n : ℕ} {name : String} {rest : List Char}
    (hsegs : ∀ s ∈ seg :: segs, IsSegment s) (hnul : ¬ NulFree seg)
    (hrest : rest = Db.joinSegments (seg :: segs) ∨ rest = upToNul (Db.joinSegments (seg :: segs)))
    (hrows : db.walkRows fuel idx node .container rest ≠ []) :
    diagnose (db.walkRows fuel idx node .container rest) n ≠
      (seg :: segs).foldlM db.into ⟨idx, name, node, .container⟩ := by
  intro heq
  obtain ⟨last, hlast⟩ := Option.ne_none_iff_exists'.mp (mt List.getLast?_eq_none_iff.mp hrows)
  obtain ⟨before, s, after, hsplit, hfold⟩ :=
    foldlM_named db (List.cons_ne_nil seg segs) idx name node
  have hboth : some (last.idx, last.seg) = some (idx + before.length + 1, s) := by
    rw [← hfold, ← heq, diagnose_named hlast]
  obtain ⟨hdepth, hseg⟩ := Prod.mk.inj (Option.some.inj hboth)
  have hs : s ∈ seg :: segs := by
    rw [hsplit]
    exact List.mem_append_right _ List.mem_cons_self
  have hin : '\x00' ∈ seg.toList := not_not.mp hnul
  rcases hrest with rfl | rfl
  · -- the first row reads the segment up to its NUL, and nothing is left after it
    rw [joinSegments_cons] at hlast
    have hrow := walkRows_cut hin (hsegs seg List.mem_cons_self).2 (List.mem_of_getLast? hlast)
    obtain rfl : before = [] := List.eq_nil_of_length_eq_zero (by omega)
    obtain rfl : seg = s := (List.cons.inj hsplit).1
    apply nul_not_mem_upToNul seg.toList
    have hname : upToNul seg.toList = seg.toList := by
      rw [← String.toList_ofList (l := upToNul seg.toList), ← hrow.2, hseg]
    rwa [hname]
  · have hsep : '/' ∉ upToNul (Db.joinSegments (seg :: segs)) := by
      rw [joinSegments_cons, upToNul_append hin]
      exact fun h => (hsegs seg List.mem_cons_self).2 ((List.takeWhile_prefix _).subset h)
    have hempty := walkRows_unseparated hsep last (List.mem_of_getLast? hlast)
    apply (hsegs s hs).1
    rw [← hseg, hempty]
    rfl

/-- From any point of the walk the rows of the query diagnose what the fold does over the
segments left exactly when those that are looked up are read to their ends. After the first
segment the query goes on with a text that may have been cut. Induction on the segments. -/
theorem diagnose_walkRows_iff (hsegs : ∀ seg ∈ segs, IsSegment seg) (hne : segs ≠ []) (fuel idx : ℕ)
    (node : NodeId) (name : String) {rest : List Char}
    (hrest : rest = Db.joinSegments segs ∨ rest = upToNul (Db.joinSegments segs))
    (hfuel : (Db.joinSegments segs).length ≤ fuel) :
    (db.walkRows fuel idx node .container rest ≠ [] ∧
      diagnose (db.walkRows fuel idx node .container rest) (idx + segs.length) =
        segs.foldlM db.into ⟨idx, name, node, .container⟩) ↔
      db.ReadsWhole node .container segs := by
  induction segs generalizing fuel idx node name rest with
  | nil => exact absurd rfl hne
  | cons seg segs ih =>
    by_cases hnul : NulFree seg
    case neg =>
      constructor
      · intro h
        exact absurd h.2 (diagnose_cut_ne hsegs hnul hrest h.1)
      · intro h
        exact absurd (h rfl).1 hnul
    have hseg : IsName seg := ⟨hsegs seg List.mem_cons_self, hnul⟩
    have hlen : (Db.joinSegments (seg :: segs)).length =
        seg.toList.length + (Db.joinSegments segs).length + 1 := by
      rw [joinSegments_cons, List.length_append, List.length_cons]
      omega
    obtain ⟨fuel, rfl⟩ : ∃ f, fuel = f + 1 := ⟨fuel - 1, by omega⟩
    -- a cut text reads the same up to the NUL, so the segment in front of it is whole
    have hshape : ∃ tail, rest = seg.toList ++ '/' :: tail ∧ upToNul tail =
        upToNul (Db.joinSegments segs) := by
      rw [joinSegments_cons, upToNul_segment hnul] at hrest
      rcases hrest with rfl | rfl
      · exact ⟨_, rfl, rfl⟩
      · exact ⟨_, rfl, upToNul_eq_self (nul_not_mem_upToNul _)⟩
    obtain ⟨tail, rfl, htail⟩ := hshape
    have hread : seg.toList ++ '/' :: tail ≠ [] := by simp
    simp only [Db.walkRows, hread, ne_eq, not_false_eq_true, and_self, ↓reduceIte]
    rw [firstSegment_segment hseg, afterSegment_segment hseg, htail, Db.walkHit_eq_resolveSegment,
      List.foldlM_cons, Db.ReadsWhole]
    cases hhit : db.resolveSegment node seg with
    | none =>
      simp only [Db.into, hhit, ↓reduceIte]
      constructor
      · intro _ _
        exact ⟨hnul, fun hit h => by cases h⟩
      · intro _
        exact ⟨by simp, by simp [diagnose]⟩
    | some hit =>
      have hinto : db.into ⟨idx, name, node, .container⟩ seg =
          .ok ⟨idx + 1, seg, hit.nodeId, hit.type⟩ := by
        simp [Db.into, hhit]
      have hwhole : (NodeType.container = .container → NulFree seg ∧ ∀ h, some hit = some h →
          db.ReadsWhole h.nodeId h.type segs) ↔ db.ReadsWhole hit.nodeId hit.type segs := by
        constructor
        · intro h
          exact (h rfl).2 hit rfl
        · intro h _
          refine ⟨hnul, ?_⟩
          intro h' heq
          rwa [← Option.some.inj heq]
      rw [hinto, hwhole]
      simp only [reduceCtorEq, not_false_eq_true, true_and]
      change diagnose _ _ = segs.foldlM db.into ⟨idx + 1, seg, hit.nodeId, hit.type⟩ ↔ _
      by_cases hlast : segs = []
      · subst hlast
        rw [show upToNul (Db.joinSegments []) = [] from rfl, walkRows_nil_rest]
        simp [diagnose, Db.ReadsWhole]
        rfl
      have hcount : idx + (seg :: segs).length = idx + 1 + segs.length := by
        rw [List.length_cons]
        omega
      rw [hcount]
      by_cases htype : hit.type = .container
      · have hnext := ih (fun s hs => hsegs s (List.mem_cons_of_mem _ hs)) hlast fuel (idx + 1)
          hit.nodeId seg (Or.inr rfl) (by omega)
        rw [htype, ← hnext]
        by_cases hrows : db.walkRows fuel (idx + 1) hit.nodeId .container
          (upToNul (Db.joinSegments segs)) = []
        · -- nothing is left to read: the last row is that of a segment the fold goes on from
          rw [hrows]
          simp only [ne_eq, not_true_eq_false, false_and, iff_false]
          intro heq
          obtain ⟨before, s, after, -, hfold⟩ := foldlM_named db hlast (idx + 1) seg hit.nodeId
          rw [← heq, diagnose_named List.getLast?_singleton] at hfold
          have hdepth : idx + 1 = idx + 1 + before.length + 1 :=
            (Prod.mk.inj (Option.some.inj hfold)).1
          omega
        · simp only [diagnose, List.getLast?_cons_of_ne_nil hrows, ne_eq, hrows,
            not_false_eq_true, true_and]
      · -- a leaf with a successor: the query stops, the fold refuses the next segment
        have hnil : db.walkRows fuel (idx + 1) hit.nodeId hit.type
            (upToNul (Db.joinSegments segs)) = [] := by
          cases fuel <;> simp [htype, Db.walkRows]
        have hpos : 0 < segs.length := List.length_pos_iff.mpr hlast
        cases segs with
        | nil => exact absurd rfl hlast
        | cons next segs =>
          rw [hnil, List.foldlM_cons]
          simp only [Db.into, htype, Db.ReadsWhole, ↓reduceIte, false_implies, iff_true]
          simp [diagnose]

/-- The query over segments reports what the fold reports exactly when those looked up
hold no NUL. -/
theorem diagnose_resolvePath_iff (hsegs : ∀ seg ∈ segs, IsSegment seg) (hne : segs ≠ []) :
    diagnose (db.resolvePath start segs) segs.length = db.foldSegments start segs ↔
      db.ReadsWhole start .container segs := by
  have hrest : Db.joinSegments segs ≠ [] := by
    obtain ⟨seg, rest, rfl⟩ := List.exists_cons_of_ne_nil hne
    simp [joinSegments_cons]
  have hfuel := Nat.le_add_right (Db.joinSegments segs).length (db.nodesBeside start)
  have hrows : db.resolvePath start segs ≠ [] :=
    walkRows_ne_nil hrest (lt_of_lt_of_le (List.length_pos_iff.mpr hrest) hfuel)
  have h := @diagnose_walkRows_iff db segs hsegs hne _ 0 start "" _ (Or.inl rfl) hfuel
  rw [Nat.zero_add] at h
  rw [← h]
  exact (and_iff_right hrows).symm

theorem walk_eq_answer (hsegs : ∀ seg ∈ segs, IsSegment seg) (hne : segs ≠ [])
    (hwhole : db.ReadsWhole start .container segs) :
    walk db start segs = answer (db.foldSegments start segs) := by
  rw [walk, readLastRow_eq_answer, (diagnose_resolvePath_iff hsegs hne).mpr hwhole]

theorem resolve_eq_answer (hstart : db.nodeType? start = some .container)
    (hwhole : db.ReadsWhole start .container (splitPath path)) :
    resolve db start path = answer (db.foldSegments start (splitPath path)) := by
  have hsegs := splitPath_isSegment path
  rw [resolve]
  cases hsplit : splitPath path with
  | nil =>
    obtain ⟨row, hrow, htype⟩ := Option.map_eq_some_iff.mp hstart
    simp only [hrow, htype]
    rfl
  | cons seg segs =>
    rw [hsplit] at hsegs hwhole
    exact walk_eq_answer hsegs (by simp) hwhole

/-- The parent of a path, by the fold over all but its last segment. -/
def Db.foldParent (db : Db) (start : NodeId) (path : String) : Except FsError Parent := do
  refuse (splitPath path = []) .notFound
  let found ← answer (db.foldSegments start (splitPath path).dropLast)
  refuse (found.type ≠ .container) (.notAContainer found.node)
  return ⟨found.node, (splitPath path).getLastD ""⟩

theorem resolveParent_eq_foldParent
    (hwhole : db.ReadsWhole start .container (splitPath path).dropLast) :
    resolveParent db start path = db.foldParent start path := by
  have hsegs := splitPath_isSegment path
  rw [resolveParent, Db.foldParent]
  cases hsplit : splitPath path with
  | nil => rfl
  | cons seg segs =>
    rw [hsplit] at hsegs hwhole
    simp only
    cases hdrop : (seg :: segs).dropLast with
    | nil => rfl
    | cons s ss =>
      rw [hdrop] at hwhole
      have hhead : ∀ t ∈ s :: ss, IsSegment t := by
        intro t ht
        exact hsegs t (List.mem_of_mem_dropLast (hdrop ▸ ht))
      simp only [walk_eq_answer hhead (List.cons_ne_nil s ss) hwhole]
      rfl

/-- From a container, the query over the segments of a path, or over the first of them,
reports what folding `resolve_segment` reports, down to the segment it ends at, exactly when
no segment that is looked up holds a NUL. `resolve` and `resolve_parent` then give what the
fold gives, and whatever the path, they end below the container they started from. -/
theorem resolution_is_segment_fold (hstart : db.nodeType? start = some .container) (path : String) :
    (∀ segs, segs <+: splitPath path → segs ≠ [] →
      (diagnose (db.resolvePath start segs) segs.length = db.foldSegments start segs ↔
        db.ReadsWhole start .container segs)) ∧
    (db.ReadsWhole start .container (splitPath path) →
      resolve db start path = answer (db.foldSegments start (splitPath path))) ∧
    (db.ReadsWhole start .container (splitPath path).dropLast →
      resolveParent db start path = db.foldParent start path) ∧
    (Legible path → db.ReadsWhole start .container (splitPath path) ∧
      db.ReadsWhole start .container (splitPath path).dropLast) ∧
    (∀ found, resolve db start path = .ok found → db.Below start found.node) ∧
    ∀ p, resolveParent db start path = .ok p → db.Below start p.container := by
  refine ⟨?_, resolve_eq_answer hstart, resolveParent_eq_foldParent, ?_,
    fun _ h => resolve_below h, fun _ h => resolveParent_below h⟩
  · intro segs hbegin hne
    exact diagnose_resolvePath_iff
      (fun seg hseg => splitPath_isSegment path seg (hbegin.subset hseg)) hne
  · intro hlegible
    exact ⟨readsWhole_of_nulFree hlegible,
      readsWhole_of_nulFree (fun seg hseg => hlegible seg (List.mem_of_mem_dropLast hseg))⟩

/-- A container with a leaf in it, and a path through the leaf. -/
def leafyDb : Db where
  nodes := [⟨1, .container, "/", 0, 7, .empty, none, none, none⟩,
    ⟨2, .entry, "a", 0, 7, .empty, none, none, none⟩]
  edges := [{ edgeId := 3, fromId := 1, toId := 2, volumeId := 7, name := "a" }]

theorem resolution_is_segment_fold_leafy :
    resolve leafyDb 1 "//a/../b" = .error (.notAContainer 2) ∧
      leafyDb.foldSegments 1 ["a", "..", "b"] = .error (.leaf 1 "a" 2) ∧
      diagnose (leafyDb.resolvePath 1 ["a", "..", "b"]) 3 = .error (.leaf 1 "a" 2) := by
  have hfold : leafyDb.foldSegments 1 ["a", "..", "b"] = .error (.leaf 1 "a" 2) := rfl
  have hsplit : splitPath "//a/../b" = ["a", "..", "b"] := by decide +kernel
  have hlegible : Legible "//a/../b" := by decide +kernel
  have hstart : leafyDb.nodeType? 1 = some .container := rfl
  obtain ⟨hreport, hres, -, hread, -⟩ := resolution_is_segment_fold hstart "//a/../b"
  rw [hsplit] at hreport hres hread
  have hwhole := (hread hlegible).1
  have hrows := (hreport _ (List.prefix_refl _) (by decide)).mpr hwhole
  rw [hfold] at hres hrows
  exact ⟨hres hwhole, hfold, hrows⟩

/-- Two files, the name of one cut by a NUL to that of the other: the path of the longer name
leads to the file of the shorter one. -/
theorem resolution_stops_at_nul :
    ∃ s path, Reaches Crypto.xorStream Msgpack.refusing (fun _ _ => True) s ∧
      s.db.nodeType? 0 = some .container ∧ resolve s.db 0 path = .ok ⟨2, .entry⟩ ∧
      answer (s.db.foldSegments 0 (splitPath path)) = .ok ⟨4, .entry⟩ := by
  let ls : List Label :=
    [⟨.counting 0, 0, .createVolume none 128 none .none⟩,
      ⟨.counting 1, 0, .mount { volume := 0 }⟩,
      ⟨.counting 2, 0, .request 1 (.createEntry "a" [1])⟩,
      ⟨.counting 4, 0, .request 1 (.createEntry "a\x00b" [2])⟩]
  have hguards : GuardedRuns.Guards (step Crypto.xorStream Msgpack.refusing)
      (fun _ _ => True) {} ls := by
    simp [GuardedRuns.Guards, ls]
  refine ⟨ls.foldl (step Crypto.xorStream Msgpack.refusing) {}, "a\x00b",
    reaches_foldl hguards, ?_, ?_, ?_⟩
  · decide +kernel
  · decide +kernel
  · decide +kernel

end Aloelite
