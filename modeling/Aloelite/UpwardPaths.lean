import Aloelite.Bindings
import Aloelite.Containment
import Aloelite.SinglePlaces

/-! `path_of` against resolution. The way up follows the newest placement of each node and
is cut off at 256 levels; the way down follows names. -/
namespace Aloelite

open Fallible KeyedRows Relation

variable {C : Crypto} {M : Msgpack} {E : Env} {k : Cipher} {db : Db} {s : Sys} {mount : MountId}
  {m : MountCtx} {path : String} {a n r : NodeId} {type : NodeType} {found : Resolved}
  {es fs below : List EdgeRow} {fuel : ℕ}

/-! ### The way up -/

/-- From `n` along newest placements up to `top`, past no volume's root. -/
def Db.Ascends (db : Db) : NodeId → List EdgeRow → NodeId → Prop
  | n, [], top => n = top
  | n, e :: es, top =>
    db.isVolumeRoot n = false ∧ db.newestPlacement n = some e ∧ db.Ascends e.fromId es top

theorem newestPlacement_spec {e : EdgeRow} (h : db.newestPlacement n = some e) :
    e ∈ db.activeEdges ∧ e.toId = n := by
  obtain ⟨id, -, hfind⟩ := Option.bind_eq_some_iff.mp h
  refine ⟨List.mem_of_find?_eq_some hfind, ?_⟩
  have hsome := List.find?_some hfind
  simp only [decide_eq_true_eq] at hsome
  exact hsome.1

theorem ascends_append : db.Ascends n (es ++ fs) r ↔ ∃ mid, db.Ascends n es mid ∧
    db.Ascends mid fs r := by
  induction es generalizing n with
  | nil =>
    constructor
    · intro h
      exact ⟨n, rfl, h⟩
    · rintro ⟨mid, rfl, h⟩
      exact h
  | cons e es ih =>
    simp only [List.cons_append, Db.Ascends, ih]
    constructor
    · rintro ⟨hroot, hup, mid, hes, hfs⟩
      exact ⟨mid, ⟨hroot, hup, hes⟩, hfs⟩
    · rintro ⟨mid, ⟨hroot, hup, hes⟩, hfs⟩
      exact ⟨hroot, hup, mid, hes, hfs⟩

/-- The row of a node that is not a root and has a placement. -/
def UpRow.ofPlacement (e : EdgeRow) : UpRow := ⟨e.toId, e.name, false⟩

theorem upRows_of_root {row : NodeRow} (hn : db.node? n = some row)
    (hroot : db.isVolumeRoot n = true) :
    db.upRows fuel n = [⟨n, ((db.newestPlacement n).map EdgeRow.name).getD row.name, true⟩] := by
  cases fuel <;> simp [Db.upRows, hn, hroot]

theorem upRows_of_placement {e : EdgeRow} (hn : (db.node? n).isSome)
    (hnot : db.isVolumeRoot n = false) (hup : db.newestPlacement n = some e) :
    db.upRows (fuel + 1) n = UpRow.ofPlacement e :: db.upRows fuel e.fromId := by
  obtain ⟨row, hrow⟩ := Option.isSome_iff_exists.mp hn
  rw [Db.upRows.eq_def]
  simp only [hrow, hnot, hup, Option.map_some, Option.getD_some, Bool.false_eq_true, if_false,
    UpRow.ofPlacement,
    (newestPlacement_spec hup).2]

/-- Where the way up stops short of a root. -/
theorem upRows_of_stop {row : NodeRow} (hn : db.node? n = some row)
    (hnot : db.isVolumeRoot n = false) (hstop : fuel = 0 ∨ db.newestPlacement n = none) :
    ∃ name, db.upRows fuel n = [⟨n, name, false⟩] := by
  rcases hstop with rfl | hnone
  · exact ⟨((db.newestPlacement n).map EdgeRow.name).getD row.name, by simp [Db.upRows, hn, hnot]⟩
  · refine ⟨row.name, ?_⟩
    cases fuel <;> simp [Db.upRows, hn, hnot, hnone]

theorem upRows_of_ascends (hl : db.Linked) (hn : (db.node? n).isSome) (h : db.Ascends n es r)
    (hroot : db.isVolumeRoot r = true) (hlen : es.length ≤ fuel) :
    ∃ name, db.upRows fuel n = es.map UpRow.ofPlacement ++ [⟨r, name, true⟩] := by
  induction es generalizing n fuel with
  | nil =>
    obtain rfl : n = r := h
    obtain ⟨row, hrow⟩ := Option.isSome_iff_exists.mp hn
    exact ⟨_, upRows_of_root hrow hroot⟩
  | cons e es ih =>
    obtain ⟨hnot, hup, hrest⟩ := h
    have hactive := (newestPlacement_spec hup).1
    have hparent := Db.node?_isSome_of_type (hl.parent e (Db.mem_activeEdges.mp hactive).1)
    cases fuel with
    | zero => exact absurd hlen (by simp)
    | succ fuel =>
      obtain ⟨name, hname⟩ := ih hparent hrest (Nat.le_of_succ_le_succ hlen)
      refine ⟨name, ?_⟩
      rw [upRows_of_placement hn hnot hup, hname]
      rfl

/-- Rows that end at a root are those of a way up to it. -/
theorem ascends_of_upRows {last : UpRow} (hl : db.Linked) (hn : (db.node? n).isSome)
    (hlast : (db.upRows fuel n).getLast? = some last) (hroot : last.isRoot = true) :
    ∃ es r, db.Ascends n es r ∧ db.isVolumeRoot r = true ∧ es.length ≤ fuel := by
  have hshort : ∀ {n : NodeId} {fuel : ℕ}, (∃ name, db.upRows fuel n = [⟨n, name, false⟩]) →
      (db.upRows fuel n).getLast? ≠ some last := by
    rintro n fuel ⟨name, hrows⟩ hlast
    rw [hrows] at hlast
    rw [← Option.some.inj hlast] at hroot
    cases hroot
  induction fuel generalizing n with
  | zero =>
    obtain ⟨row, hrow⟩ := Option.isSome_iff_exists.mp hn
    cases hnot : db.isVolumeRoot n with
    | true => exact ⟨[], n, rfl, hnot, le_rfl⟩
    | false => exact absurd hlast (hshort (upRows_of_stop hrow hnot (Or.inl rfl)))
  | succ fuel ih =>
    obtain ⟨row, hrow⟩ := Option.isSome_iff_exists.mp hn
    cases hnot : db.isVolumeRoot n with
    | true => exact ⟨[], n, rfl, hnot, Nat.zero_le _⟩
    | false =>
      cases hup : db.newestPlacement n with
      | none => exact absurd hlast (hshort (upRows_of_stop hrow hnot (Or.inr hup)))
      | some e =>
        have hactive := (newestPlacement_spec hup).1
        have hparent := Db.node?_isSome_of_type (hl.parent e (Db.mem_activeEdges.mp hactive).1)
        rw [upRows_of_placement hn hnot hup] at hlast
        have hrest : (db.upRows fuel e.fromId).getLast? = some last := by
          cases hrows : db.upRows fuel e.fromId with
          | nil =>
            rw [hrows] at hlast
            rw [← Option.some.inj hlast] at hroot
            cases hroot
          | cons row' rows =>
            rw [hrows, List.getLast?_cons_cons] at hlast
            exact hlast
        obtain ⟨es, r, hes, hr, hlen⟩ := ih hparent hrest
        exact ⟨e :: es, r, ⟨hnot, hup, hes⟩, hr, Nat.succ_le_succ hlen⟩

/-! ### The path that is built -/

/-- The way up from `n` to the anchor `a`, met for the first time, and on to a volume's
root, all within the depth the query sees. -/
def Db.Anchored (db : Db) (a n : NodeId) (below : List EdgeRow) : Prop :=
  db.Ascends n below a ∧ (∀ e ∈ below, e.toId ≠ a) ∧
    ∃ above r, db.Ascends a above r ∧ db.isVolumeRoot r = true ∧ below.length + above.length ≤
    depthCap

/-- `/` and the names of the way up, in the order down. -/
def joinedNames (below : List EdgeRow) : String :=
  "/" ++ "/".intercalate (below.map EdgeRow.name).reverse

theorem first_meeting (h : db.Ascends n es r) (hmet : a = r ∨ ∃ e ∈ es, e.toId = a) :
    ∃ below above, es = below ++ above ∧ db.Ascends n below a ∧ (∀ e ∈ below, e.toId ≠ a) ∧
      db.Ascends a above r := by
  induction es generalizing n with
  | nil =>
    obtain rfl : n = r := h
    rcases hmet with rfl | ⟨e, he, -⟩
    · exact ⟨[], [], rfl, rfl, fun _ he => (nomatch he), rfl⟩
    · cases he
  | cons e es ih =>
    obtain ⟨hnot, hup, hrest⟩ := id h
    have hto := (newestPlacement_spec hup).2
    by_cases heq : n = a
    · exact ⟨[], e :: es, rfl, heq, fun _ he => (nomatch he), heq ▸ h⟩
    · have hmet' : a = r ∨ ∃ e ∈ es, e.toId = a := by
        refine hmet.imp_right ?_
        rintro ⟨e', he', hto'⟩
        rcases List.mem_cons.mp he' with rfl | hmem
        · exact absurd (hto.symm.trans hto') heq
        · exact ⟨e', hmem, hto'⟩
      obtain ⟨below, above, rfl, hbelow, hne, habove⟩ := ih hrest hmet'
      refine ⟨e :: below, above, rfl, ⟨hnot, hup, hbelow⟩, ?_, habove⟩
      intro e' he'
      rcases List.mem_cons.mp he' with rfl | hmem
      · rw [hto]
        exact heq
      · exact hne e' hmem

theorem head_of_ascends {name : String} (h : db.Ascends a es r) :
    ∀ row ∈ (es.map UpRow.ofPlacement ++ [UpRow.mk r name true]).head?, row.nodeId = a := by
  intro row hrow
  cases es with
  | nil =>
    obtain rfl : a = r := h
    rw [← Option.some.inj hrow]
  | cons e es =>
    rw [← Option.some.inj hrow]
    exact (newestPlacement_spec h.2.1).2

theorem buildPath_eq_ok (hl : db.Linked) (hn : (db.node? n).isSome) :
    buildPath db n a = .ok path ↔ ∃ below, db.Anchored a n below ∧ path = joinedNames below := by
  have hrow : ∀ (below : List EdgeRow) (rest : List UpRow), (∀ e ∈ below, e.toId ≠ a) →
      (∀ row ∈ rest.head?, row.nodeId = a) →
      (below.map UpRow.ofPlacement ++ rest).takeWhile (fun r => r.nodeId ≠ a) =
      below.map UpRow.ofPlacement := by
    intro below rest hne hrest
    have hfirst : rest.takeWhile (fun r => r.nodeId ≠ a) = [] := by
      cases rest with
      | nil => rfl
      | cons row rest => simp [hrest row rfl]
    rw [List.takeWhile_append_of_pos, hfirst, List.append_nil]
    intro row hrow
    obtain ⟨e, he, rfl⟩ := List.mem_map.mp hrow
    exact decide_eq_true (hne e he)
  have hnames : ∀ below : List EdgeRow, (below.map UpRow.ofPlacement).map UpRow.name =
      below.map EdgeRow.name := by
    intro below
    rw [List.map_map]
    rfl
  simp only [buildPath, bind_eq_ok, pure_eq_ok, orRaise_eq_ok, refuse_eq_ok]
  constructor
  · rintro ⟨last, hlast, u, hroot, u', hmet, rfl⟩
    obtain ⟨es, r, hes, hr, hlen⟩ := ascends_of_upRows hl hn hlast (by simpa using hroot)
    obtain ⟨name, hrows⟩ := upRows_of_ascends hl hn hes hr hlen
    rw [hrows] at hmet ⊢
    have hmet' : a = r ∨ ∃ e ∈ es, e.toId = a := by
      simp only [Bool.not_eq_false', List.any_eq_true, decide_eq_true_eq, List.mem_append,
        List.mem_map,
        List.mem_singleton] at hmet
      obtain ⟨row, ⟨e, he, rfl⟩ | rfl, hid⟩ := hmet
      · exact Or.inr ⟨e, he, hid⟩
      · exact Or.inl hid.symm
    -- the way up is cut where it first meets the anchor
    obtain ⟨below, above, rfl, hbelow, hne, habove⟩ := first_meeting hes hmet'
    rw [List.length_append] at hlen
    refine ⟨below, ⟨hbelow, hne, above, r, habove, hr, hlen⟩, ?_⟩
    rw [List.map_append, List.append_assoc, hrow below _ hne (head_of_ascends habove),
      hnames, joinedNames]
  · rintro ⟨below, ⟨hbelow, hne, above, r, habove, hr, hlen⟩, rfl⟩
    have hes := ascends_append.mpr ⟨a, hbelow, habove⟩
    have hdepth : (below ++ above).length ≤ depthCap := by
      rw [List.length_append]
      exact hlen
    obtain ⟨name, hrows⟩ := upRows_of_ascends hl hn hes hr hdepth
    have hhead : ∀ row ∈ (above.map UpRow.ofPlacement ++ [UpRow.mk r name true]).head?, row.nodeId =
        a :=
      head_of_ascends habove
    have htrim := hrow below _ hne hhead
    rw [← List.append_assoc, ← List.map_append, ← hrows] at htrim
    refine ⟨⟨r, name, true⟩, ?_, (), rfl, (), ?_, ?_⟩
    · rw [hrows, List.getLast?_concat]
    · have hmet : ∃ row ∈ db.upRows depthCap n, row.nodeId = a := by
        obtain ⟨row, hrow'⟩ : ∃ row, (above.map UpRow.ofPlacement ++ [UpRow.mk r name true]).head? =
          some row := by
          cases above <;> exact ⟨_, rfl⟩
        refine ⟨row, ?_, hhead row hrow'⟩
        rw [hrows, List.map_append, List.append_assoc]
        exact List.mem_append_right _ (List.mem_of_mem_head? hrow')
      simpa using hmet
    · rw [htrim, hnames, joinedNames]

/-! ### Up and down again -/

/-- The way down that `path_of` reports is the one resolution takes: each placement that
the way up follows, to the anchor, has a name a path can hold and is the visible one of
its name. -/
def Db.Upright (db : Db) (a n : NodeId) : Prop :=
  ∃ below, db.Anchored a n below ∧ ∀ e ∈ below, IsName e.name ∧ db.binding e.fromId e.name =
    some e.toId

/-- The names of the way up may lead to the node by another way: one of them holds a
separator or a NUL, or the node stands under its newest name in another container as well. -/
def Db.Coincident (db : Db) (a n : NodeId) : Prop :=
  ∃ below, db.Anchored a n below ∧ ((∃ e ∈ below, ¬ IsName e.name) ∨
    ∃ e ∈ below, e.toId = n ∧ ∃ q ∈ db.placements, q.2.1 = n ∧ q.2.2 = e.name ∧ q.1 ≠ e.fromId)

theorem joinedNames_split (h : ∀ e ∈ below, IsName e.name) :
    splitPath (joinedNames below) = (below.map EdgeRow.name).reverse := by
  apply splitPath_joined
  intro seg hseg
  obtain ⟨e, he, rfl⟩ := List.mem_map.mp (List.mem_reverse.mp hseg)
  exact (h e he).1

theorem joinedNames_legible (h : ∀ e ∈ below, IsName e.name) : Legible (joinedNames below) := by
  intro seg hseg
  rw [joinedNames_split h] at hseg
  obtain ⟨e, he, rfl⟩ := List.mem_map.mp (List.mem_reverse.mp hseg)
  exact (h e he).2

theorem ascends_active (h : db.Ascends n es r) : ∀ e ∈ es, e ∈ db.activeEdges := by
  induction es generalizing n with
  | nil => exact fun _ he => nomatch he
  | cons e es ih =>
    intro e' he'
    rcases List.mem_cons.mp he' with rfl | he'
    · exact (newestPlacement_spec h.2.1).1
    · exact ih h.2.2 e' he'

theorem ascends_parent {e : EdgeRow} (hl : db.Linked) (h : db.Ascends n (e :: es) r) :
    e.placement ∈ db.placements ∧ e.toId = n ∧ db.nodeType? e.fromId = some .container := by
  obtain ⟨hactive, hto⟩ := newestPlacement_spec h.2.1
  exact ⟨placement_mem_placements hactive, hto, hl.parent e (Db.mem_activeEdges.mp hactive).1⟩

/-- Visible placements are walked down. -/
theorem descend_of_ascends (hl : db.Linked) (h : db.Ascends n below a)
    (hbound : ∀ e ∈ below, db.binding e.fromId e.name = some e.toId)
    (htype : below ≠ [] → db.nodeType? n = some type) (hstart : below = [] → type = .container) :
    descend db a .container (below.map EdgeRow.name).reverse = .ok ⟨n, type⟩ := by
  induction below generalizing n type with
  | nil =>
    obtain rfl : n = a := h
    rw [hstart rfl]
    rfl
  | cons e es ih =>
    obtain ⟨-, hto, hparent⟩ := ascends_parent hl h
    have htype' : db.nodeType? n = some type := htype (List.cons_ne_nil e es)
    have hup : descend db a .container (es.map EdgeRow.name).reverse = .ok ⟨e.fromId, .container⟩ :=
      ih h.2.2 (fun e he => hbound e (List.mem_cons_of_mem _ he)) (fun _ => hparent) (fun _ => rfl)
    rw [List.map_cons, List.reverse_cons]
    apply descend_append.mpr
    refine ⟨_, hup, ?_⟩
    obtain ⟨hit, hhit, hid⟩ := Option.map_eq_some_iff.mp (hbound e List.mem_cons_self)
    have hitType := nodeType?_of_binding hhit
    rw [hid, hto, htype'] at hitType
    simp only [descend, ↓reduceIte, hhit, hid, hto, ← Option.some.inj hitType]

/-- Down to a container there is one way of a given length, so the placements of the way
up are visible where the names lead to it. -/
theorem bound_of_descend (hl : db.Linked) (ho : db.SinglyPlaced) (h : db.Ascends n below a)
    (hfirst : ∀ e ∈ below, e.toId = n → ∀ q ∈ db.placements, q.2.1 = n →
      q.2.2 = e.name → q.1 = e.fromId)
    (hdown : descend db a .container (below.map EdgeRow.name).reverse = .ok ⟨n, type⟩) :
    ∀ e ∈ below, db.binding e.fromId e.name = some e.toId := by
  induction below generalizing n type with
  | nil => exact fun _ he => nomatch he
  | cons e es ih =>
    obtain ⟨hplaced, hto, hparent⟩ := ascends_parent hl h
    rw [List.map_cons, List.reverse_cons] at hdown
    obtain ⟨mid, hmid, hbound, -⟩ := descend_last hdown
    have hmem := ((binding_eq_some hl).mp hbound).1
    obtain rfl : mid = e.fromId := hfirst e List.mem_cons_self hto _ hmem rfl rfl
    have hrest := ih h.2.2 ?_ hmid
    · intro e' he'
      rcases List.mem_cons.mp he' with rfl | he'
      · rw [hto]
        exact hbound
      · exact hrest e' he'
    · intro e' he' hto' q hq hid hname
      have hmem' : e'.placement ∈ db.placesOf e.fromId :=
        mem_placesOf.mpr ⟨placement_mem_placements (ascends_active h.2.2 e' he'), hto'⟩
      exact congrArg Prod.fst (SinglyPlaced.same ho hparent (mem_placesOf.mpr ⟨hq, hid⟩) hmem')

/-- `path_of` inverts resolution at an upright node; where it does at another one, the
names of its way up lead to it by coincidence. -/
theorem path_of_inverts_resolution {guard : Sys → Label → Prop} (h : Reaches C M guard s)
    (hm : requireMount E k s.db mount false = .ok m)
    (hfound : resolve s.db m.mountPoint path = .ok found) :
    (s.db.Upright m.mountPoint found.node →
      ∃ p, pathOf E k s.db mount found.node = .ok p ∧ resolve s.db m.mountPoint p = .ok found) ∧
    ((∃ p, pathOf E k s.db mount found.node = .ok p ∧ resolve s.db m.mountPoint p = .ok found) →
      s.db.Upright m.mountPoint found.node ∨ s.db.Coincident m.mountPoint found.node) := by
  have hl := h.sound.linked
  have ho := h.singlyPlaced
  have htype := resolve_nodeType hfound
  have hn := Db.node?_isSome_of_type htype
  have hpath : ∀ p, pathOf E k s.db mount found.node = .ok p ↔
      ∃ below, s.db.Anchored m.mountPoint found.node below ∧ p = joinedNames below := by
    intro p
    rw [← buildPath_eq_ok hl hn, pathOf, hm]
    rfl
  have hempty : ∀ below : List EdgeRow, (below.map EdgeRow.name).reverse = [] ↔ below = [] := by
    intro below
    rw [List.reverse_eq_nil_iff, List.map_eq_nil_iff]
  constructor
  -- down along the names of the way up, each of which is the visible one in its container
  · rintro ⟨below, hanchored, hvisible⟩
    have hsplit : splitPath (joinedNames below) = (below.map EdgeRow.name).reverse :=
      joinedNames_split (fun e he => (hvisible e he).1)
    refine ⟨joinedNames below, (hpath _).mpr ⟨below, hanchored, rfl⟩, ?_⟩
    rw [resolve_eq_ok (joinedNames_legible (fun e he => (hvisible e he).1)), hsplit, Ne, hempty]
    by_cases hnil : below = []
    · subst hnil
      have hself : found.node = m.mountPoint := hanchored.1
      exact Or.inl ⟨rfl, hself, hself ▸ htype⟩
    · refine Or.inr ⟨hnil, ?_⟩
      exact descend_of_ascends hl hanchored.1 (fun e he => (hvisible e he).2) (fun _ => htype)
        (fun h => absurd h hnil)
  -- the names lead back, so the walk down must have passed the edges of the way up
  · rintro ⟨p, hp, hback⟩
    obtain ⟨below, hanchored, rfl⟩ := (hpath p).mp hp
    by_cases hcoincident : s.db.Coincident m.mountPoint found.node
    · exact Or.inr hcoincident
    refine Or.inl ⟨below, hanchored, ?_⟩
    have hseg : ∀ e ∈ below, IsName e.name := by
      intro e he
      by_contra hnot
      exact hcoincident ⟨below, hanchored, Or.inl ⟨e, he, hnot⟩⟩
    rw [resolve_eq_ok (joinedNames_legible hseg), joinedNames_split hseg, Ne, hempty] at hback
    rcases hback with ⟨rfl, -⟩ | ⟨-, hdown⟩
    · exact fun _ he => nomatch he
    have hbound := bound_of_descend hl ho hanchored.1 ?_ hdown
    · exact fun e he => ⟨hseg e he, hbound e he⟩
    · intro e he hto q hq hid hname
      by_contra hother
      exact hcoincident ⟨below, hanchored, Or.inr ⟨e, he, hto, q, hq, hid, hname, hother⟩⟩

/-- A leaf placed once, two levels below the anchor. -/
theorem path_of_inverts_resolution_leaf :
    ∃ p, pathOf (.counting 6) .identity (leafRun.foldl (step Crypto.xorStream .sample) {}).db 1 4 =
      .ok p ∧
      resolve (leafRun.foldl (step Crypto.xorStream .sample) {}).db 0 p = .ok ⟨4, .entry⟩ := by
  have hreach : Reaches Crypto.xorStream .sample (fun _ _ => True)
      (leafRun.foldl (step Crypto.xorStream .sample) {}) :=
    reaches_foldl ⟨trivial, trivial, trivial, trivial, trivial⟩
  obtain ⟨s, hs⟩ : ∃ s, s = leafRun.foldl (step Crypto.xorStream .sample) {} := ⟨_, rfl⟩
  rw [← hs] at hreach ⊢
  have hm : requireMount (.counting 6) .identity s.db 1 false = .ok ⟨1, 0, 0, .none⟩ := by
    rw [hs]
    decide +kernel
  have hfound : resolve s.db 0 "a/x" = .ok ⟨4, .entry⟩ := by
    rw [hs]
    decide +kernel
  refine (path_of_inverts_resolution hreach hm hfound).1 ?_
  let leaf : EdgeRow := { edgeId := 5, fromId := 2, toId := 4, volumeId := 0, name := "x" }
  let container : EdgeRow := { edgeId := 3, fromId := 0, toId := 2, volumeId := 0, name := "a" }
  have hup : s.db.isVolumeRoot 4 = false ∧ s.db.newestPlacement 4 = some leaf ∧
      s.db.isVolumeRoot 2 = false ∧
      s.db.newestPlacement 2 = some container ∧ s.db.isVolumeRoot 0 = true ∧
      s.db.binding 2 "x" = some 4 ∧
      s.db.binding 0 "a" = some 2 := by
    rw [hs]
    decide +kernel
  obtain ⟨hleaf, hnewest, hnot, hnewest', hroot, hx, ha⟩ := hup
  refine ⟨[leaf, container],
    ⟨⟨hleaf, hnewest, hnot, hnewest', rfl⟩, by decide, [], 0, rfl, hroot, by decide⟩, ?_⟩
  intro e he
  rcases List.mem_cons.mp he with rfl | he
  · exact ⟨by decide, hx⟩
  · obtain rfl := List.mem_singleton.mp he
    exact ⟨by decide, ha⟩

/-- A leaf placed in `a` and then in `b`, and a second mount anchored at `a`. -/
def outsideLinkRun : List Label :=
  [⟨.counting 0, 0, .createVolume none 256 none .none⟩, ⟨.counting 1, 0, .mount { volume := 0 }⟩,
    ⟨.counting 2, 0, .request 1 (.createContainer "a")⟩,
    ⟨.counting 4, 0, .request 1 (.createContainer "b")⟩,
    ⟨.counting 6, 0, .request 1 (.createEntry "a/x" [7])⟩,
    ⟨.counting 8, 0, .request 1 (.link "a/x" "b/y")⟩,
    ⟨.counting 9, 0, .mount { volume := 0, path := "a", allowOverlap := true }⟩]

/-- Through the second mount the leaf is found but has no path. -/
theorem path_of_leaves_the_mount :
    ∃ s m, Reaches Crypto.xorStream .sample (fun _ _ => True) s ∧
      requireMount (.counting 10) .identity s.db 9 false = .ok m ∧
        resolve s.db m.mountPoint "x" = .ok ⟨6, .entry⟩ ∧
      pathOf (.counting 10) .identity s.db 9 6 = .error .notFound := by
  refine ⟨outsideLinkRun.foldl (step Crypto.xorStream .sample) {}, ⟨9, 2, 0, .none⟩, ?_, ?_, ?_, ?_⟩
  · exact reaches_foldl ⟨trivial, trivial, trivial, trivial, trivial, trivial, trivial, trivial⟩
  all_goals decide +kernel

end Aloelite
