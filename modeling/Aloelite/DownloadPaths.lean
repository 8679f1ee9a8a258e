import Aloelite.CliTransfer
import Aloelite.Listings
import Aloelite.Readback
import Aloelite.ReaderSteps

/-! What `get -r` has below the container it starts at, and the relative paths it goes by. As long
as no name it meets holds a separator, the text behind the last separator of a relative path
is the whole name of the last node. -/
namespace Aloelite

open Fallible KeyedRows

variable {db : Db} {ctx : MountCtx} {own : VolumeId → Cipher} {c n : NodeId} {t : NodeType}
  {chain : List String} {name : String}

/-! ### What is there -/

/-- The nodes the walk can come to, by the names on the way: visible placements from the
container on. -/
inductive Seen (db : Db) (c : NodeId) : List String → NodeId → NodeType → Prop
  | root : Seen db c [] c .container
  | child {chain : List String} {p : NodeId} {r : ListedRow} (hp : Seen db c chain p .container)
    (hr : r ∈ db.listChildren p)
      (hvisible : r.visible = true) : Seen db c (chain ++ [r.name]) r.nodeId r.type

/-- Every visible name the walk meets is one a path can hold. -/
def MeetsSegments (db : Db) (c : NodeId) : Prop :=
  ∀ chain p, Seen db c chain p .container → ∀ r ∈ db.listChildren p, r.visible = true →
    IsName r.name

/-- A name that is safe below a local directory. -/
def SafePiece (piece : List Char) : Prop :=
  piece ≠ [] ∧ piece ≠ ['.'] ∧ piece ≠ ['.', '.'] ∧ '/' ∉ piece

instance (piece : List Char) : Decidable (SafePiece piece) :=
  inferInstanceAs (Decidable (_ ∧ _ ∧ _ ∧ _))

/-- What a local file system does on a new directory: a directory can be made where no file
is on the way, a file can be written in a directory that was made. -/
def Fits (log : List LocalAct) : LocalAct → Prop
  | .mkdir path => ∀ q data, LocalAct.write q data ∈ log → ¬ q <+: path
  | .write path _ => path ≠ [] ∧ LocalAct.mkdir path.dropLast ∈ log ∧ LocalAct.mkdir path ∉ log

/-- A new directory that takes whatever fits. -/
def freshDirectory (log : List LocalAct) : LocalAct → Bool
  | .mkdir path => log.all (fun
    | .write q _ => ¬ q <+: path
    | .mkdir _ => true)
  | .write path _ => path ≠ [] ∧ LocalAct.mkdir path.dropLast ∈ log ∧ LocalAct.mkdir path ∉ log

theorem freshDirectory_iff {log : List LocalAct} {act : LocalAct} :
    freshDirectory log act = true ↔ Fits log act := by
  cases act with
  | mkdir path =>
    rw [freshDirectory, List.all_eq_true]
    constructor
    · intro h q data hq
      exact of_decide_eq_true (h _ hq)
    · intro h act hact
      cases act with
      | mkdir q => rfl
      | write q data => exact decide_eq_true (h q data hact)
  | write path data => exact decide_eq_true_iff

/-! ### Relative paths -/

/-- The relative path of a chain of names. -/
def relOf (chain : List String) : List Char := ['/'].intercalate (chain.map String.toList)

theorem relOf_ne_nil (hsegs : ∀ name ∈ chain, IsSegment name) (hne : chain ≠ []) :
    relOf chain ≠ [] := by
  intro h
  obtain ⟨first, rest, rfl⟩ := List.exists_cons_of_ne_nil hne
  have hfirst := (hsegs first List.mem_cons_self).1
  cases rest with
  | nil => exact hfirst (by simpa [relOf] using h)
  | cons second rest => simp [relOf, List.intercalate_cons_cons] at h

theorem relOf_snoc (hne : chain ≠ []) :
    relOf (chain ++ [name]) = relOf chain ++ '/' :: name.toList := by
  induction chain with
  | nil => exact absurd rfl hne
  | cons first rest ih =>
    cases rest with
    | nil => simp [relOf, List.intercalate_cons_cons]
    | cons second rest =>
      have hrest := ih (by simp)
      simp only [relOf, List.cons_append, List.map_cons, List.intercalate_cons_cons] at hrest ⊢
      rw [hrest]
      simp

theorem childRel_relOf (hsegs : ∀ name ∈ chain, IsSegment name) :
    childRel (relOf chain) name = relOf (chain ++ [name]) := by
  rw [childRel]
  by_cases hne : chain = []
  · subst hne
    simp [relOf]
  · rw [if_neg (relOf_ne_nil hsegs hne), relOf_snoc hne]

theorem splitOn_relOf (hsegs : ∀ name ∈ chain, IsSegment name) (hne : chain ≠ []) :
    (relOf chain).splitOn '/' = chain.map String.toList := by
  apply List.splitOn_intercalate
  · intro piece hpiece
    obtain ⟨name, hname, rfl⟩ := List.mem_map.mp hpiece
    exact (hsegs name hname).2
  · simpa using hne

theorem rpartition_relOf (hsegs : ∀ name' ∈ chain ++ [name], IsSegment name') :
    rpartition (relOf (chain ++ [name])) = (relOf chain, name.toList) := by
  rw [rpartition, splitOn_relOf hsegs (by simp), List.map_append, List.map_singleton,
    List.dropLast_concat, List.getLast?_concat]
  rfl

theorem localPieces_relOf (hsegs : ∀ name ∈ chain, IsSegment name) (hne : chain ≠ []) :
    localPieces (relOf chain) = chain.map String.toList := by
  rw [localPieces, splitOn_relOf hsegs hne, List.filter_eq_self]
  intro piece hpiece
  obtain ⟨name, hname, rfl⟩ := List.mem_map.mp hpiece
  simpa using (hsegs name hname).1

theorem relOf_injective {chain' : List String} (hsegs : ∀ name ∈ chain, IsSegment name)
    (hsegs' : ∀ name ∈ chain', IsSegment name) (h : relOf chain = relOf chain') :
    chain = chain' := by
  by_cases hne : chain = []
  · by_contra hne'
    subst hne
    exact relOf_ne_nil hsegs' (Ne.symm hne') h.symm
  · have hne' : chain' ≠ [] := by
      rintro rfl
      exact relOf_ne_nil hsegs hne h
    have hsplit := splitOn_relOf hsegs hne
    rw [h, splitOn_relOf hsegs' hne'] at hsplit
    exact (List.map_injective_iff.mpr (fun _ _ => String.toList_injective) hsplit).symm

/-! ### What the walk sees -/

/-- A visible row is the node its name leads to. -/
theorem row_facts {p : NodeId} {r : ListedRow} (hr : r ∈ db.listChildren p)
    (hvisible : r.visible = true) :
    db.winMax p r.name = some r.nodeId ∧ ∃ hit, db.node? r.nodeId = some hit ∧
      hit.nodeId = r.nodeId ∧ hit.type = r.type := by
  obtain ⟨e, -, -, hit, hhit, rfl⟩ := mem_directoryListing.mp (mem_listChildren.mp hr)
  have hid : hit.nodeId = e.toId := Db.nodeId_of_node? hhit
  refine ⟨of_decide_eq_true hvisible, hit, ?_, rfl, rfl⟩
  change db.node? hit.nodeId = some hit
  rw [hid]
  exact hhit

theorem Seen.segments (hmeets : MeetsSegments db c) (h : Seen db c chain n t) :
    ∀ name ∈ chain, IsSegment name := by
  induction h with
  | root =>
    intro name hname
    cases hname
  | child hp hr hvisible ih =>
    intro name hname
    rcases List.mem_append.mp hname with hname | hname
    · exact ih name hname
    · obtain rfl := List.mem_singleton.mp hname
      exact (hmeets _ _ hp _ hr hvisible).1

/-- A chain of names leads to one node. -/
theorem Seen.functional {n' : NodeId} {t' : NodeType} (h : Seen db c chain n t)
    (h' : Seen db c chain n' t') : n = n' ∧ t = t' := by
  induction h generalizing n' t' with
  | root =>
    generalize hwhole : ([] : List String) = whole at h'
    cases h' with
    | root => exact ⟨rfl, rfl⟩
    | child hp hr hvisible => simp at hwhole
  | @child chain p r hp hr hvisible ih =>
    generalize hwhole : chain ++ [r.name] = whole at h'
    cases h' with
    | root => simp at hwhole
    | @child chain' p' r' hp' hr' hvisible' =>
      obtain ⟨rfl, hlast⟩ := List.append_inj' hwhole rfl
      have hname : r.name = r'.name := by simpa using hlast
      obtain ⟨rfl, -⟩ := ih hp'
      obtain ⟨hmax, hit, hhit, -, htype⟩ := row_facts hr hvisible
      obtain ⟨hmax', hit', hhit', -, htype'⟩ := row_facts hr' hvisible'
      rw [hname] at hmax
      have hid : r.nodeId = r'.nodeId := Option.some.inj (hmax.symm.trans hmax')
      rw [hid] at hhit
      obtain rfl := Option.some.inj (hhit.symm.trans hhit')
      exact ⟨hid, htype.symm.trans htype'⟩

/-- What is on the way to a seen node is a seen container. -/
theorem Seen.parent {name : String} (h : Seen db c (chain ++ [name]) n t) :
    ∃ p, Seen db c chain p .container := by
  generalize hwhole : chain ++ [name] = whole at h
  cases h with
  | root => simp at hwhole
  | @child chain' p r hp hr hvisible =>
    obtain ⟨rfl, -⟩ := List.append_inj' hwhole rfl
    exact ⟨p, hp⟩

theorem Seen.on_the_way {rest : List String} (hne : rest ≠ []) (h : Seen db c (chain ++ rest) n t) :
    ∃ p, Seen db c chain p .container := by
  induction rest using List.reverseRecOn generalizing n t with
  | nil => exact absurd rfl hne
  | append_singleton rest last ih =>
    rw [← List.append_assoc] at h
    obtain ⟨p, hp⟩ := h.parent
    by_cases hrest : rest = []
    · subst hrest
      rw [List.append_nil] at hp
      exact ⟨p, hp⟩
    · exact ih hrest hp

/-- A listed entry is resolved by its own path, and that path can be walked on. -/
theorem resolve_entryPath {p : NodeId} {r : ListedRow} {cur : String} (hlegible : Legible cur)
    (hcur : resolve db ctx.mountPoint cur = .ok ⟨p, .container⟩) (hname : IsName r.name)
    (hr : r ∈ db.listChildren p) (hvisible : r.visible = true) :
    Legible (DirEntry.ofRow (listingPath cur) r).path ∧
      resolve db ctx.mountPoint (DirEntry.ofRow (listingPath cur) r).path =
        .ok ⟨r.nodeId, r.type⟩ := by
  obtain ⟨-, hit, hhit, hid, htype⟩ := row_facts hr hvisible
  have hsplit : splitPath (DirEntry.ofRow (listingPath cur) r).path = splitPath cur ++ [r.name] :=
    splitPath_entryPath hname.1 rfl
  constructor
  · exact hlegible.snoc hname.2 hsplit
  · apply (resolve_child hlegible hname.2 hcur hsplit).mpr
    exact ⟨hit, resolveSegment_iff_listed.mpr ⟨r, hr, hvisible, rfl, hhit⟩, hid, htype⟩

end Aloelite
