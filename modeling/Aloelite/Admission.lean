import Aloelite.DeepTree
import Aloelite.Attachment
import Aloelite.Locks
import Aloelite.Homes

/-! Which rw mounts of a volume are valid side by side (D-4). A mount is admitted by a check
of the tree as it is then; afterwards the tree only moves under mounts that were admitted. -/
namespace Aloelite

open Fallible KeyedRows ForestOrder Relation

variable {C : Crypto} {M : Msgpack} {E : Env} {k : Cipher} {L : License} {now t : Int} {db db' : Db}
  {tx tx' : Tx} {s : Sys} {c : ConnId} {op : Op} {l : Label} {mount m m' : MountId}
  {a f n x y : NodeId} {r r' : MountRow}

/-- A mount that is valid at a moment and may change the tree. -/
def Db.Writes (db : Db) (t : Int) (m : MountId) (r : MountRow) : Prop :=
  db.validMount? t m = some r ∧ r.access = .rw

/-- No valid rw mount of a volume is anchored at or below the anchor of another one. -/
def Db.Apart (db : Db) (t : Int) : Prop :=
  ∀ m m' r r', db.Writes t m r → db.Writes t m' r' → m ≠ m' → r.volumeId = r'.volumeId →
    ¬ db.Below r.mountPoint r'.mountPoint

/-! ### One parent -/

/-- The guard trigger of the edge table: a container has one active placement. -/
def Db.OneParent (db : Db) : Prop :=
  ∀ x y n, db.nodeType? n = some .container → db.Child x n → db.Child y n → x = y

theorem Stride.oneParent (h : Stride L now db db') (hl : db.Linked) (hp : db.OneParent) :
    db'.OneParent := by
  cases h with
  | stmt st hst hexec =>
    have htypes : ∀ n, db'.nodeType? n = db.nodeType? n := by
      intro n
      rw [Db.nodeType?_eq, Db.nodeType?_eq,
        (Stmt.exec_agreeOff hexec).identities (L.not_identities db st hst)]
    by_cases hedge : ∃ id f t v n, st = .createEdge id f t v n
    · obtain ⟨id, f, t, v, name, rfl⟩ := hedge
      obtain ⟨src, dst, -, hdst, -, -, hsingle, -, -, heq⟩ := Db.createEdge_ok hexec
      have hedges : db'.activeEdges =
          db.activeEdges ++ [⟨id, f, t, v, false, name.getD dst.name⟩] := by
        rw [heq]
        exact Db.activeEdges_append _ _ rfl
      intro x y n hn hx hy
      rw [htypes] at hn
      -- a container that gets this placement had none
      have hfree : ∀ z, n = t → ¬ db.Child z n := by
        rintro z rfl ⟨e, he, -, hto⟩
        rw [Db.nodeType?, hdst, Option.map_some] at hn
        exact hsingle (Option.some.inj hn) e he hto
      rcases child_append hedges x n hx with hx | ⟨rfl, hx⟩
      · rcases child_append hedges y n hy with hy | ⟨rfl, hy⟩
        · exact hp x y n hn hx hy
        · exact absurd hx (hfree x hy)
      · rcases child_append hedges y n hy with hy | ⟨rfl, -⟩
        · exact absurd hy (hfree y hx)
        · rfl
    · have hne : ∀ id f t v n, st ≠ .createEdge id f t v n :=
        fun id f t v n heq => hedge ⟨id, f, t, v, n, heq⟩
      have hchild := (License.activeEdges_of_grants hst hexec hne).2
      have hback : ∀ x n, db'.Child x n → db.Child x n := by
        rintro x n ⟨e, he, rfl, rfl⟩
        obtain ⟨e₀, he₀, hfrom, hto⟩ := hchild e he
        exact ⟨e₀, he₀, hfrom, hto⟩
      intro x y n hn hx hy
      exact hp x y n (htypes n ▸ hn) (hback x n hx) (hback y n hy)
  | birth row modifiedAt id f hhost hf hrow hfill hedge =>
    obtain ⟨hnone, hnodes, -, -, -, -, -, hedges⟩ := birth_shape hrow hfill hedge
    have hactive : db'.activeEdges =
        db.activeEdges ++ [⟨id, f, row.nodeId, row.volumeId, false, row.name⟩] := by
      simp [Db.activeEdges, hedges]
    have hfree : ∀ z, ¬ db.Child z row.nodeId := by
      rintro z ⟨e, he, -, hto⟩
      have hsome := hl.child e (Db.mem_activeEdges.mp he).1
      rw [hto, hnone] at hsome
      cases hsome
    intro x y n hn hx hy
    rcases child_append hactive x n hx with hx | ⟨rfl, rfl⟩
    · rcases child_append hactive y n hy with hy | ⟨rfl, rfl⟩
      · have hold : n ≠ row.nodeId := fun heq => hfree x (heq ▸ hx)
        rw [nodeType?_append hnodes hold] at hn
        exact hp x y n hn hx hy
      · exact absurd hx (hfree x)
    · rcases child_append hactive y row.nodeId hy with hy | ⟨rfl, -⟩
      · exact absurd hy (hfree y)
      · rfl

theorem Strides.oneParent (h : Strides L now db db') (hs : db.Sound) (hp : db.OneParent) :
    db'.OneParent := by
  have hboth : db'.Sound ∧ db'.OneParent := by
    induction h with
    | refl => exact ⟨hs, hp⟩
    | tail _ hstride ih => exact ⟨hstride.sound ih.1, hstride.oneParent ih.1.linked ih.2⟩
  exact hboth.2

theorem Db.OneParent.congr (hp : db.OneParent) (hedges : db'.activeEdges = db.activeEdges)
    (htypes : ∀ x n, db.Child x n → db'.nodeType? n = some .container →
      db.nodeType? n = some .container) : db'.OneParent := by
  have hchild : ∀ x n, db'.Child x n → db.Child x n := by
    intro x n hx
    rw [Db.Child, hedges] at hx
    exact hx
  intro x y n hn hx hy
  exact hp x y n (htypes x n (hchild x n hx) hn) (hchild x n hx) (hchild y n hy)

theorem Effect.oneParent (h : Effect C E s op db) (hs : s.db.Sound) (hp : s.db.OneParent) :
    db.OneParent := by
  cases h with
  | strides h => exact h.oneParent hs hp
  | founding h =>
    obtain ⟨-, hfresh, -, hnodes, -, hframe, -, -⟩ := createVolume_shape h
    have hactive : _ = s.db.activeEdges := congrArg (List.filter _) (hframe.edges (by simp))
    refine hp.congr hactive ?_
    rintro x n ⟨e, he, -, rfl⟩ htype
    have hsome := hs.linked.child e (Db.mem_activeEdges.mp he).1
    rw [nodeType?_append hnodes] at htype
    · exact htype
    · rintro heq
      have hnone : s.db.node? e.toId = none := heq ▸ hfresh
      rw [hnone] at hsome
      cases hsome
  | prune h =>
    rw [prune_shape h hs]
    exact hp.congr rfl (fun _ _ _ hn => hn)
  | pruneContent h =>
    rw [pruneContent_shape h]
    exact hp.congr rfl (fun _ _ _ hn => hn)

theorem empty_oneParent : Db.OneParent {} := by
  rintro x y n hn ⟨e, he, -⟩
  cases he

/-- Two nodes above a container are above one another. -/
theorem Db.OneParent.comparable (hp : db.OneParent) (hl : db.Linked)
    (hn : db.nodeType? n = some .container) (hx : db.Below x n) (hy : db.Below y n) :
    db.Below x y ∨ db.Below y x := by
  refine reach_comparable ?_ (fun x y z hz => hp x y z hz) hn hx hy
  rintro x y ⟨e, he, rfl, -⟩
  exact hl.parent e (Db.mem_activeEdges.mp he).1

/-! ### What lies above a node that was there -/

/-- Over a stride a node that was there gets no placement but the one of the license. -/
theorem Stride.child_back (h : Stride L now db db') (hy : (db.node? y).isSome)
    (hc : db'.Child x y) :
    db.Child x y ∨ L.adopt = some (x, y) := by
  cases h with
  | stmt st hst hexec =>
    by_cases hedge : ∃ id f t v n, st = .createEdge id f t v n
    · obtain ⟨id, f, t, v, name, rfl⟩ := hedge
      obtain ⟨src, dst, -, -, -, -, -, -, -, heq⟩ := Db.createEdge_ok hexec
      have hedges : db'.activeEdges =
          db.activeEdges ++ [⟨id, f, t, v, false, name.getD dst.name⟩] := by
        rw [heq]
        exact Db.activeEdges_append _ _ rfl
      rcases child_append hedges x y hc with hold | ⟨rfl, rfl⟩
      · exact Or.inl hold
      · exact Or.inr hst.1
    · have hne : ∀ id f t v n, st ≠ .createEdge id f t v n :=
        fun id f t v n heq => hedge ⟨id, f, t, v, n, heq⟩
      obtain ⟨e, he, rfl, rfl⟩ := hc
      obtain ⟨e₀, he₀, hfrom, hto⟩ := (License.activeEdges_of_grants hst hexec hne).2 e he
      exact Or.inl ⟨e₀, he₀, hfrom, hto⟩
  | birth row modifiedAt id f hhost hf hrow hfill hedge =>
    obtain ⟨hnone, -, -, -, -, -, -, hedges⟩ := birth_shape hrow hfill hedge
    have hactive : db'.activeEdges =
        db.activeEdges ++ [⟨id, f, row.nodeId, row.volumeId, false, row.name⟩] := by
      simp [Db.activeEdges, hedges]
    rcases child_append hactive x y hc with hold | ⟨-, rfl⟩
    · exact Or.inl hold
    · rw [hnone] at hy
      cases hy

theorem Strides.child_back (h : Strides L now db db') (hy : (db.node? y).isSome)
    (hc : db'.Child x y) :
    db.Child x y ∨ L.adopt = some (x, y) := by
  induction h with
  | refl => exact Or.inl hc
  | tail hbefore hstride ih =>
    have hmid := node?_isSome_persists (Strides.identities hbefore) hy
    rcases hstride.child_back hmid hc with hold | hadopt
    · exact ih hold
    · exact Or.inr hadopt

/-- A way down to a node that was there is an old one, or leads over the placement of the
license. -/
theorem Strides.below_back (h : Strides L now db db') (hl : db.Linked)
    (hadopt : ∀ f t, L.adopt = some (f, t) → (db.node? f).isSome) (hy : (db.node? y).isSome)
    (hb : db'.Below x y) :
    db.Below x y ∨ ∃ f t, L.adopt = some (f, t) ∧ db.Below x f ∧ db.Below t y := by
  induction hb with
  | refl => exact Or.inl ReflTransGen.refl
  | @tail z y _ hzy ih =>
    rcases h.child_back hy hzy with hold | hnew
    · have hz : (db.node? z).isSome := by
        obtain ⟨e, he, rfl, -⟩ := hold
        exact Db.node?_isSome_of_type (hl.parent e (Db.mem_activeEdges.mp he).1)
      rcases ih hz with hxz | ⟨f, t, hft, hxf, htz⟩
      · exact Or.inl (hxz.tail hold)
      · exact Or.inr ⟨f, t, hft, hxf, htz.tail hold⟩
    · rcases ih (hadopt z y hnew) with hxz | ⟨f, t, hft, hxf, -⟩
      · exact Or.inr ⟨z, y, hnew, hxz, ReflTransGen.refl⟩
      · obtain ⟨rfl, rfl⟩ := Prod.mk.inj (Option.some.inj (hft.symm.trans hnew))
        exact Or.inr ⟨_, _, hnew, hxf, ReflTransGen.refl⟩

/-! ### Steps -/

theorem adoption_spec {src dst : String} (h : adoption db a src dst = some (f, n))
    (ha : (db.node? a).isSome) :
    db.Below a f ∧ db.Below a n ∧ (db.node? f).isSome ∧
      (f = a ∨ db.nodeType? f = some .container) := by
  rw [adoption] at h
  cases hfound : resolve db a src with
  | error e =>
    rw [hfound] at h
    cases h
  | ok found =>
    cases hparent : resolveParent db a dst with
    | error e =>
      rw [hfound, hparent] at h
      cases h
    | ok p =>
      rw [hfound, hparent] at h
      obtain ⟨rfl, rfl⟩ := Prod.mk.inj (Option.some.inj h)
      refine ⟨resolveParent_below hparent, resolve_below hfound,
        resolveParent_exists ha hparent, ?_⟩
      obtain ⟨-, -, names, hd⟩ := resolveParent_descends hparent
      by_cases hnil : names = []
      · rw [hnil] at hd
        exact Or.inl (congrArg Resolved.node (Except.ok.inj hd)).symm
      · exact Or.inr (descend_node hd (Or.inr hnil))

/-- Only `link` and `move` place a node that was there, and both ask for the write flag. -/
theorem request_adopts {q : Request} {reply : Reply} {p : NodeId × NodeId}
    (h : q.run C M E k tx mount = .ok (tx', reply)) (hp : (q.license tx.db a).adopt = some p) :
    (∃ ctx, requireMount E k tx.db mount true = .ok ctx) ∧ ∃ src dst, adoption tx.db a src dst =
      some p := by
  cases q with
  | link src dst =>
    obtain ⟨ctx, hctx, -⟩ := link_strides (noReply_ok h)
    exact ⟨⟨ctx, hctx⟩, src, dst, hp⟩
  | move src dst =>
    obtain ⟨ctx, hctx, -⟩ := move_strides (noReply_ok h)
    exact ⟨⟨ctx, hctx⟩, src, dst, hp⟩
  | _ => cases hp

theorem requireMount_writes {ctx : MountCtx} (h : requireMount E k db mount true = .ok ctx) :
    ∃ r, db.Writes E.now mount r ∧ r.mountPoint = db.anchorOf E.now mount := by
  have hanchor := anchorOf_eq h
  simp only [requireMount, bind_eq_ok, orRaise_eq_ok, refuse_eq_ok, pure_eq_ok] at h
  obtain ⟨row, hrow, volume, -, u, -, u', hrw, rfl⟩ := h
  refine ⟨row, ⟨hrow, ?_⟩, hanchor.symm⟩
  cases haccess : row.access with
  | rw => rfl
  | ro => simp [haccess] at hrw

/-- The placement of a node that was there, made through a valid rw mount: the container and
the node are in the mount's subtree. -/
structure Db.Placing (db : Db) (t : Int) (m : MountId) (r : MountRow) (f n : NodeId) : Prop where
  writes : db.Writes t m r
  host : db.Below r.mountPoint f
  node : db.Below r.mountPoint n
  container : f = r.mountPoint ∨ db.nodeType? f = some .container

/-- After a step a way down to a node that was there is an old one, or leads over such a
placement. -/
theorem exec_below_back (hs : s.db.Sound) (hy : (s.db.node? y).isSome)
    (hb : (exec C M E s c op).1.db.Below x y) :
    s.db.Below x y ∨ ∃ m r f n, (∃ q, op = .request m q) ∧ s.db.Placing E.now m r f n ∧
      s.db.Below x f ∧ s.db.Below n y := by
  -- only a request can place a node that was there
  by_cases hrequest : ∃ m q, op = .request m q
  · obtain ⟨m, q, rfl⟩ := hrequest
    cases hrun : q.run C M E (s.conns c).cipher s.begin m with
    | error e =>
      simp only [exec, hrun] at hb
      exact Or.inl hb
    | ok a =>
      obtain ⟨tx, reply⟩ := a
      simp only [exec, hrun] at hb
      have hlinked : s.begin.db.Linked := hs.linked
      obtain ⟨ctx, w, hctx, hstrides⟩ := request_strides hlinked hrun
      have hanchor : s.db.anchorOf E.now m = ctx.mountPoint := anchorOf_eq hctx
      obtain ⟨row, volume, hrow, -, -, rfl⟩ := requireMount_ok hctx
      have hexists : (s.db.node? row.mountPoint).isSome :=
        hs.linked.anchor row (mem_of_lookup (Option.filter_eq_some_iff.mp hrow).1)
      have hhost : ∀ f n, (q.license s.db row.mountPoint).adopt = some (f, n) →
          (s.db.node? f).isSome := by
        intro f n h
        obtain ⟨-, src, dst, hfn⟩ := request_adopts hrun h
        exact (adoption_spec hfn hexists).2.2.1
      rcases hstrides.below_back hs.linked hhost hy hb with hold | ⟨f, n, hnew, hxf, hny⟩
      · exact Or.inl hold
      · obtain ⟨⟨ctx', hctx'⟩, src, dst, hfn⟩ := request_adopts hrun hnew
        obtain ⟨hf, hn, -, hcontainer⟩ := adoption_spec hfn hexists
        obtain ⟨r, hwrites, hpoint⟩ := requireMount_writes hctx'
        have hsame : r.mountPoint = row.mountPoint := hpoint.trans hanchor
        exact Or.inr ⟨m, r, f, n, ⟨q, rfl⟩,
          ⟨hwrites, hsame ▸ hf, hsame ▸ hn, hsame ▸ hcontainer⟩, hxf, hny⟩
  · left
    have heffect : Effect C E s op (exec C M E s c op).1.db := exec_effect hs.linked
    have hedges : ∀ db : Db, db.activeEdges = s.db.activeEdges → db.Below x y → s.db.Below x y := by
      intro db hedges hb
      have hchild : ∀ x y, db.Child x y → s.db.Child x y := by
        intro x y h
        rw [Db.Child, hedges] at h
        exact h
      exact ReflTransGen.mono hchild x y hb
    generalize (exec C M E s c op).1.db = db at hb heffect
    cases heffect with
    | strides h =>
      have hnone : (op.license E s).adopt = none := by
        cases op with
        | request m q => exact absurd ⟨m, q, rfl⟩ hrequest
        | fdFlush fd =>
          rw [Op.license]
          split <;> rfl
        | fdClose fd =>
          rw [Op.license]
          split <;> rfl
        | _ => rfl
      rcases h.below_back hs.linked (fun f n hfn => absurd (hnone.symm.trans hfn) (by simp)) hy
        hb with hold | ⟨f, n, hfn, -⟩
      · exact hold
      · rw [hnone] at hfn
        cases hfn
    | founding h =>
      obtain ⟨-, -, -, -, -, hframe, -, -⟩ := createVolume_shape h
      exact hedges _ (congrArg (List.filter _) (hframe.edges (by simp))) hb
    | prune h =>
      rw [prune_shape h hs] at hb
      exact hedges _ rfl hb
    | pruneContent h =>
      rw [pruneContent_shape h] at hb
      exact hedges _ rfl hb

/-- A valid rw mount after a step was one before it, anchored where it is, or was just
admitted. -/
theorem Tenure.writes_back {P : Prop} {A : MountRow → Prop} (h : Tenure E P A db db')
    (hle : E.now ≤ t) (hw : db'.Writes t m r) :
    (∃ r₀, db.Writes E.now m r₀ ∧ r₀.mountPoint = r.mountPoint ∧ r₀.volumeId = r.volumeId) ∨
      (A r ∧ db'.mounts = db.mounts ++ [r] ∧ r.mountId = m) := by
  obtain ⟨hvalid, haccess⟩ := hw
  obtain ⟨hlook, hstate, hexp⟩ := validMount?_eq_some.mp hvalid
  have hexp' := unexpired_mono hle hexp
  have hold : db.mount? m = some r →
      (∃ r₀, db.Writes E.now m r₀ ∧ r₀.mountPoint = r.mountPoint ∧ r₀.volumeId = r.volumeId) ∨
        (A r ∧ db'.mounts = db.mounts ++ [r] ∧ r.mountId = m) := fun hr =>
    Or.inl ⟨r, ⟨validMount?_eq_some.mpr ⟨hr, hstate, hexp'⟩, haccess⟩, rfl, rfl⟩
  cases h with
  | mounted row hallowed hnew hmounts hlocks =>
    rw [Db.mount?, hmounts] at hlook
    cases hm : db.mount? m with
    | some r₀ =>
      rw [lookup_append_of_some hm] at hlook
      obtain rfl := Option.some.inj hlook
      exact hold hm
    | none =>
      by_cases hid : row.mountId = m
      · rw [← hid, lookup_append_self hnew] at hlook
        obtain rfl := Option.some.inj hlook
        exact Or.inr ⟨hallowed, hmounts, hid⟩
      · rw [lookup_append_of_ne hid] at hlook
        exact hold hlook
  | unmounted m' hmounts hlocks =>
    rw [mount?_amend hmounts (fun _ => rfl)] at hlook
    by_cases heq : m = m'
    · rw [if_pos heq, Option.map_eq_some_iff] at hlook
      obtain ⟨r₁, -, rfl⟩ := hlook
      exact absurd rfl hstate
    · rw [if_neg heq] at hlook
      exact hold hlook
  | renewedMount m' exp hvalid' hmounts hlocks =>
    rw [mount?_amend hmounts (fun _ => rfl)] at hlook
    by_cases heq : m = m'
    · rw [if_pos heq, Option.map_eq_some_iff] at hlook
      obtain ⟨r₁, hr₁, rfl⟩ := hlook
      obtain ⟨r₂, hr₂⟩ := Option.isSome_iff_exists.mp hvalid'
      have hsame : r₂ = r₁ :=
        Option.some.inj ((validMount?_eq_some.mp hr₂).1.symm.trans (heq ▸ hr₁))
      subst hsame
      exact Or.inl ⟨r₂, ⟨heq ▸ hr₂, haccess⟩, rfl, rfl⟩
    · rw [if_neg heq] at hlook
      exact hold hlook
  | same hmounts hlocks | locked row hmints hid hnew hmount hnode hfree hmounts hlocks
  | renewedLock row exp hrow hvalid hmounts hlocks | dropped p hmounts hlocks =>
    rw [Db.mount?, hmounts] at hlook
    exact hold hlook

/-! ### Admission -/

/-- If one node is below another, it is within the reach of the ancestor view. -/
def Db.Near (db : Db) (x y : NodeId) : Prop := db.Below x y → ∃ n ≤ depthCap, Leads db.Child n x y

/-- No valid rw mount of the volume is anchored more than 256 levels above or below the
anchor of the rw mount that is asked for. -/
def Op.NearMounts (E : Env) (db : Db) : Op → Prop
  | .mount args => args.access = .rw → ∀ volume root anchor, db.volume? args.volume = some volume →
      volume.rootNodeId = some root → resolve db root args.path = .ok anchor →
      ∀ m r, db.Writes E.now m r →
      r.volumeId = args.volume → db.Near anchor.node r.mountPoint ∧ db.Near r.mountPoint anchor.node
  | _ => True

def Admits (s : Sys) (l : Label) : Prop := Unforced s l ∧ l.op.NearMounts l.env s.db

/-- What the admission check has seen of a mount that it let in. -/
theorem Admitted.apart {args : MountArgs} {row : MountRow} (h : Admitted E db args row)
    (hrw : row.access = .rw) (hno : args.allowOverlap = false)
    (hnear : (Op.mount args).NearMounts E db) (hw : db.Writes E.now m r)
    (hv : r.volumeId = row.volumeId) :
    ¬ db.Below row.mountPoint r.mountPoint ∧ ¬ db.Below r.mountPoint row.mountPoint := by
  obtain ⟨volume, root, anchor, hvolume, hroot, hanchor, hfree, hpoint⟩ := h.anchored
  have haccess : args.access = .rw := h.access.symm.trans hrw
  have hsame : r.volumeId = args.volume := hv.trans h.volume
  obtain ⟨hdown, hup⟩ := hnear haccess volume root anchor hvolume hroot hanchor m r hw hsame
  obtain ⟨hlook, hstate, hexp⟩ := validMount?_eq_some.mp hw.1
  have hnone : db.checkRwOverlap E.now args.volume anchor.node = none := by
    rw [requireNoOverlap, if_pos ⟨haccess, hno⟩] at hfree
    cases hclash : db.checkRwOverlap E.now args.volume anchor.node with
    | none => rfl
    | some clash =>
      rw [hclash] at hfree
      cases hfree
  rw [Db.checkRwOverlap, Option.map_eq_none_iff, List.find?_eq_none] at hnone
  have hclear := hnone r (mem_of_lookup hlook)
  -- the check is the one of `move` in both directions
  have hunseen : db.checkCycle anchor.node r.mountPoint = false ∧
      db.checkCycle r.mountPoint anchor.node = false := by
    rw [Db.checkCycle, Db.checkCycle, decide_eq_false_iff_not, decide_eq_false_iff_not]
    simp only [decide_eq_true_eq, not_and] at hclear
    have hrest := hclear hstate hexp hsame hw.2
    rw [not_or, not_or] at hrest
    obtain ⟨hpoints, habove, hbelow⟩ := hrest
    exact ⟨not_or.mpr ⟨Ne.symm hpoints, hbelow⟩, not_or.mpr ⟨hpoints, habove⟩⟩
  rw [hpoint]
  constructor
  · intro hb
    have hseen := Db.checkCycle_iff.mpr (hdown hb)
    rw [hunseen.1] at hseen
    cases hseen
  · intro hb
    have hseen := Db.checkCycle_iff.mpr (hup hb)
    rw [hunseen.2] at hseen
    cases hseen

theorem Db.Writes.unique (h : db.Writes t m r) (h' : db.Writes t m r') : r = r' :=
  Option.some.inj (h.1.symm.trans h'.1)

theorem Db.Writes.mem (h : db.Writes t m r) : r ∈ db.mounts :=
  mem_of_lookup (validMount?_eq_some.mp h.1).1

/-- A placement through a mount relates no two mounts that were apart: what it leads from is
above the mount's anchor, or under it, and what it leads to is under it. -/
theorem Db.Placing.apart {m₁ : MountId} {r₁ : MountRow} (h : db.Placing t m₁ r₁ f n)
    (hl : db.Linked) (hh : db.Homed) (hp : db.OneParent) (ha : db.Apart t) (hw : db.Writes t m r)
    (hw' : db.Writes t m' r') (hne : m ≠ m') (hv : r.volumeId = r'.volumeId) :
    ¬ (db.Below r.mountPoint f ∧ db.Below n r'.mountPoint) := by
  rintro ⟨hxf, hny⟩
  have hdown : db.Below r₁.mountPoint r'.mountPoint := h.node.trans hny
  by_cases hmine : m₁ = m'
  · subst hmine
    obtain rfl := h.writes.unique hw'
    rcases h.container with heq | hcontainer
    · exact ha m m₁ r r₁ hw hw' hne hv (heq ▸ hxf)
    · rcases hp.comparable hl hcontainer hxf h.host with hb | hb
      · exact ha m m₁ r r₁ hw hw' hne hv hb
      · exact ha m₁ m r₁ r hw' hw hne.symm hv.symm hb
  · have hhome := hh.below hdown (hh.anchor r₁ h.writes.mem)
    have hsame : r₁.volumeId = r'.volumeId :=
      Option.some.inj (hhome.symm.trans (hh.anchor r' hw'.mem))
    exact ha m₁ m' r₁ r' h.writes hw' hmine hsame hdown

theorem exec_apart (hs : s.db.Sound) (hh : s.db.Homed) (hp : s.db.OneParent)
    (hadmits : Admits s l) (ha : s.db.Apart l.env.now) (ht : l.env.now ≤ t) :
    (exec C M l.env s l.conn l.op).1.db.Apart t := by
  obtain ⟨⟨-, hno⟩, hnear⟩ := hadmits
  have hten : Tenure l.env l.op.mintsLock (l.op.admits l.env s.db) s.db
      (exec C M l.env s l.conn l.op).1.db := exec_tenure hs
  -- only `mount` admits, and it moves no node
  have hmount : ∀ row, l.op.admits l.env s.db row → ∃ args, l.op = .mount args ∧
      Admitted l.env s.db args row := by
    intro row hrow
    generalize l.op = op at hrow ⊢
    cases op with
    | mount args => exact ⟨args, rfl, hrow⟩
    | _ => exact hrow.elim
  intro m m' r r' hw hw' hne hv hb
  rcases hten.writes_back ht hw with ⟨r₀, hr, hpoint, hvol⟩ | ⟨hadm, hmounts, hid⟩
  · rcases hten.writes_back ht hw' with ⟨r₀', hr', hpoint', hvol'⟩ | ⟨hadm', -, -⟩
    · rw [← hpoint, ← hpoint'] at hb
      have hv₀ : r₀.volumeId = r₀'.volumeId := hvol.trans (hv.trans hvol'.symm)
      rcases exec_below_back hs (hs.linked.anchor r₀' hr'.mem) hb with hold | ⟨m₁, r₁, f, n, -,
        hplacing, hxf, hny⟩
      · exact ha m m' r₀ r₀' hr hr' hne hv₀ hold
      · exact hplacing.apart hs.linked hh hp ha hr hr' hne hv₀ ⟨hxf, hny⟩
    · obtain ⟨args, hop, hadmitted⟩ := hmount r' hadm'
      rw [← hpoint] at hb
      rw [hop] at hnear
      obtain ⟨volume, root, anchor, -, -, hanchor, -, hat⟩ := hadmitted.anchored
      have hy : (s.db.node? r'.mountPoint).isSome :=
        hat ▸ Db.node?_isSome_of_type (resolve_nodeType hanchor)
      rcases exec_below_back hs hy hb with hold | ⟨m₁, r₁, f, n, ⟨q, hq⟩, -⟩
      · exact (hadmitted.apart hw'.2 (hno args hop) hnear hr (hvol.trans hv)).2 hold
      · rw [hop] at hq
        cases hq
  · obtain ⟨args, hop, hadmitted⟩ := hmount r hadm
    rw [hop] at hnear
    rcases hten.writes_back ht hw' with ⟨r₀', hr', hpoint', hvol'⟩ | ⟨-, hmounts', hid'⟩
    · rw [← hpoint'] at hb
      rcases exec_below_back hs (hs.linked.anchor r₀' hr'.mem) hb with hold | ⟨m₁,
        r₁, f, n, ⟨q, hq⟩, -⟩
      · exact (hadmitted.apart hw.2 (hno args hop) hnear hr' (hvol'.trans hv.symm)).1 hold
      · rw [hop] at hq
        cases hq
    · have hsame : r = r' := by
        have happend := List.append_cancel_left (hmounts.symm.trans hmounts')
        exact (List.cons.inj happend).1
      exact hne (hid.symm.trans ((congrArg MountRow.mountId hsame).trans hid'))

/-- D-4, on every run whose rw mounts are asked for within 256 levels of the valid ones. -/
theorem rw_mounts_apart (h : Reaches C M Admits s) (ht : s.clock ≤ t) : s.db.Apart t := by
  have hall : s.db.Sound ∧ s.db.Homed ∧ s.db.OneParent ∧ ∀ t, s.clock ≤ t → s.db.Apart t := by
    refine GuardedRuns.Run.invariant
      (P := fun s : Sys => s.db.Sound ∧ s.db.Homed ∧ s.db.OneParent ∧
        ∀ t, s.clock ≤ t → s.db.Apart t) ?_ h ?_
    · intro s l hadmits hs
      obtain ⟨hsound, hhomed, hparent, hapart⟩ := hs
      refine ⟨step_sound hsound, exec_homed hsound hhomed,
        (exec_effect hsound.linked).oneParent hsound hparent, ?_⟩
      intro t ht
      exact exec_apart hsound hhomed hparent hadmits (hapart _ hadmits.1.1) ht
    · refine ⟨empty_sound, empty_homed, empty_oneParent, ?_⟩
      intro t _ m m' r r' hw
      cases hw.mem
  exact hall.2.2.2 t ht

/-! ### Two mounts side by side -/

theorem Db.near_of_leaf (h : ∀ e ∈ db.activeEdges, e.fromId ≠ x) : db.Near x y := by
  intro hb
  have hself : y = x := by
    refine reach_of_isolated ?_ hb
    rintro z ⟨e, he, hfrom, -⟩
    exact h e he hfrom
  refine ⟨0, by decide, ?_⟩
  rw [hself]
  exact leads_zero.mpr rfl

/-- What an rw mount on a childless container meets when no valid rw mount has anything under
its anchor. -/
theorem nearMounts_of_leaves {args : MountArgs} {root : NodeId} {volume : VolumeRow}
    (found : Resolved)
    (hvolume : db.volume? args.volume = some volume) (hroot : volume.rootNodeId = some root)
    (hfound : resolve db root args.path = .ok found)
    (hleaf : ∀ e ∈ db.activeEdges, e.fromId ≠ found.node)
    (hmounts : ∀ r ∈ db.mounts, r.state ≠ .unmounted → ∀ e ∈ db.activeEdges,
      e.fromId ≠ r.mountPoint) :
    (Op.mount args).NearMounts E db := by
  intro _ volume' root' anchor hvolume' hroot' hanchor m r hw _
  obtain rfl : volume = volume' := Option.some.inj (hvolume.symm.trans hvolume')
  obtain rfl : root = root' := Option.some.inj (hroot.symm.trans hroot')
  obtain rfl : found = anchor := Except.ok.inj (hfound.symm.trans hanchor)
  obtain ⟨-, hstate, -⟩ := validMount?_eq_some.mp hw.1
  exact ⟨Db.near_of_leaf hleaf, Db.near_of_leaf (hmounts r hw.mem hstate)⟩

/-- Two containers under the root, and an rw mount on each once the one on the root is closed. -/
def twoRooms : List Label :=
  [⟨.counting 0, 0, .createVolume none 1 none .none⟩,
    ⟨.counting 1, 0, .mount { volume := 0 }⟩,
    ⟨.counting 2, 0, .request 1 (.createContainer "a")⟩,
    ⟨.counting 4, 0, .request 1 (.createContainer "b")⟩,
    ⟨.counting 6, 0, .unmount 1⟩,
    ⟨.counting 6, 0, .mount { volume := 0, path := "a" }⟩,
    ⟨.counting 7, 1, .mount { volume := 0, path := "b" }⟩]

/-- The state before the step of the given number. -/
def twoRoomsAt (n : ℕ) : Sys := (twoRooms.take n).foldl (step Crypto.xorStream Msgpack.refusing) {}

theorem twoRooms_guards :
    GuardedRuns.Guards (step Crypto.xorStream Msgpack.refusing) Admits {} twoRooms := by
  have hother : ∀ {s : Sys} {l : Label}, s.clock ≤ l.env.now → (∀ args, l.op ≠ .mount args) →
      Admits s l := by
    intro s l hclock hne
    refine ⟨⟨hclock, fun args hop => absurd hop (hne args)⟩, ?_⟩
    generalize l.op = op at hne
    cases op with
    | mount args => exact absurd rfl (hne args)
    | _ => trivial
  have hmount : ∀ {s : Sys} {n : ℕ} {c : ConnId} {args : MountArgs}, s.clock ≤ 0 →
      args.allowOverlap = false →
      (Op.mount args).NearMounts (.counting n) s.db → Admits s ⟨.counting n, c, .mount args⟩ := by
    intro s n c args hclock hno hnear
    refine ⟨⟨hclock, ?_⟩, hnear⟩
    intro args' hop
    cases hop
    exact hno
  have hroot : (Op.mount { volume := 0 }).NearMounts (.counting 1) (twoRoomsAt 1).db :=
    nearMounts_of_leaves ⟨0, .container⟩ rfl rfl (by decide +kernel) (by decide +kernel)
      (by decide +kernel)
  have ha : (Op.mount { volume := 0, path := "a" }).NearMounts (.counting 6) (twoRoomsAt 5).db :=
    nearMounts_of_leaves ⟨2, .container⟩ rfl rfl (by decide +kernel) (by decide +kernel)
      (by decide +kernel)
  have hb : (Op.mount { volume := 0, path := "b" }).NearMounts (.counting 7) (twoRoomsAt 6).db :=
    nearMounts_of_leaves ⟨4, .container⟩ rfl rfl (by decide +kernel) (by decide +kernel)
      (by decide +kernel)
  refine ⟨hother le_rfl (by simp), hmount le_rfl rfl hroot, hother le_rfl (by simp),
    hother le_rfl (by simp),
    hother le_rfl (by simp), hmount le_rfl rfl ha, hmount le_rfl rfl hb, trivial⟩

theorem rw_mounts_apart_rooms :
    (twoRooms.foldl (step Crypto.xorStream Msgpack.refusing) {}).db.Apart 0 :=
  rw_mounts_apart (reaches_foldl twoRooms_guards) le_rfl

/-! ### 257 levels apart -/

theorem Deep.below_root {depth i : ℕ} (h : Deep depth db) (hi : i ≤ depth) :
    db.Below 0 (2 * i) := by
  induction i with
  | zero => exact ReflTransGen.refl
  | succ i ih =>
    have hstep : db.Child (2 * i) (2 * (i + 1)) := h.child_iff.mpr ⟨i, hi, rfl, rfl⟩
    exact (ih (Nat.le_of_succ_le hi)).tail hstep

/-- The check of an rw mount on the deepest of more than 256 nested containers misses the one
on the root. -/
theorem Deep.checkRwOverlap_eq {depth : ℕ} (h : Deep depth db) (hdeep : 256 < depth) :
    db.checkRwOverlap now 0 (2 * depth) = none := by
  have habove : db.checkCycle 0 (2 * depth) = false := h.checkCycle_eq (i := 0) (by omega)
  have hbelow : db.checkCycle (2 * depth) 0 = false := by
    rw [Bool.eq_false_iff]
    intro hc
    obtain ⟨m, -, hl⟩ := Db.checkCycle_iff.mp hc
    have hup : 0 = 2 * (depth + m) := h.leads_eq hl
    omega
  rw [Db.checkCycle, decide_eq_false_iff_not, not_or] at habove hbelow
  rw [Db.checkRwOverlap, Option.map_eq_none_iff, List.find?_eq_none, h.mounts]
  intro r hr
  obtain rfl := List.mem_singleton.mp hr
  rw [decide_eq_true_eq]
  rintro ⟨-, -, -, -, heq | hin | hin⟩
  · exact habove.1 heq
  · exact habove.2 hin
  · exact hbelow.2 hin

/-- The mount on the deepest container. -/
def deepMount (depth : ℕ) (state : MountState) : MountRow :=
  { mountId := 2 * (depth + 1), volumeId := 0, mountPoint := 2 * depth, state := state,
    expiresAt := none, access := .rw }

theorem Deep.mount_eq {depth : ℕ} (h : Deep depth db) (hdeep : 256 < depth) (al : Bool)
    (cm : NodeId → Bytes) :
    Aloelite.mount C (.counting (2 * (depth + 1))) { db := db, aliased := al, committed := cm }
        { volume := 0, path := deepPath depth } =
      .ok ({ db := { db with mounts := db.mounts ++ [deepMount depth .active] },
             aliased := al, committed := cm },
        2 * (depth + 1), { cipher := .identity, session := none }) := by
  have hfound : resolve db 0 (deepPath depth) = .ok ⟨2 * depth, .container⟩ := by
    rw [resolve_eq_ok (Deep.legible_deepPath depth), Deep.splitPath_deepPath]
    have hd := h.descend_eq (i := 0) (j := depth) (by omega)
    rw [Nat.zero_add] at hd
    refine Or.inr ⟨?_, hd⟩
    rw [ne_eq, List.replicate_eq_nil_iff]
    omega
  have hfree : requireNoOverlap (.counting (2 * (depth + 1))) db
      { volume := 0, path := deepPath depth } (2 * depth) = .ok () := by
    rw [requireNoOverlap, if_pos ⟨rfl, rfl⟩, h.checkRwOverlap_eq hdeep]
  have hnew : db.mount? (deepMount depth .new).mountId = none := by
    rw [Db.mount?, lookup_eq_none, h.mounts]
    intro r hr
    obtain rfl := List.mem_singleton.mp hr
    show 1 ≠ 2 * (depth + 1)
    omega
  have hpoint : db.node? (deepMount depth .new).mountPoint = some (deepNode depth) :=
    h.node?_eq le_rfl
  have hcreate : db.createMount (deepMount depth .new) =
      .ok { db with mounts := db.mounts ++ [deepMount depth .new] } := by
    rw [Db.createMount, hnew, hpoint, show (deepMount depth .new).volumeId =
      0 from rfl, h.volume?_eq]
    rfl
  have hactivate : amend MountRow.mountId (db.mounts ++ [deepMount depth .new]) (2 * (depth + 1))
      (fun r => { r with state := .active }) = db.mounts ++ [deepMount depth .active] :=
    amend_append_fresh _ hnew
  simp only [Aloelite.mount, h.volume?_eq, orRaise, ok_bind, hfound, hfree, Tx.run, Stmt.exec]
  have hrow : ({ mountId := (Env.counting (2 * (depth + 1))).uuid, volumeId := 0,
                 mountPoint := 2 * depth,
                 expiresAt := expiry (Env.counting (2 * (depth + 1))).now none, access :=
                   .rw } : MountRow) =
      deepMount depth .new := rfl
  rw [hrow, hcreate]
  have hopen : ({ db with mounts := db.mounts ++ [deepMount depth .new] } : Db).setMountState
      (2 * (depth + 1)) .active =
      { db with mounts := db.mounts ++ [deepMount depth .active] } := by
    rw [Db.setMountState, hactivate]
  rw [← hopen]
  rfl

/-- Of two rw mounts that are 257 levels apart both are admitted. -/
theorem deep_mounts_nested :
    ∃ s, Reaches Crypto.xorStream Msgpack.refusing Unforced s ∧ ¬ s.db.Apart s.clock := by
  obtain ⟨s, hs, hcipher, hdeep, hclock⟩ := reaches_deep Crypto.xorStream Msgpack.refusing 257
  let l : Label := ⟨.counting 516, 0, .mount { volume := 0, path := deepPath 257 }⟩
  have hguard : Unforced s l := by
    refine ⟨le_of_eq hclock, ?_⟩
    intro args hop
    cases hop
    rfl
  have hmount := hdeep.mount_eq (C := Crypto.xorStream) (by decide) s.aliased s.committed
  have hdb : (step Crypto.xorStream Msgpack.refusing s l).db =
      { s.db with mounts := s.db.mounts ++ [deepMount 257 .active] } := by
    simp only [step, exec, Sys.begin, hmount, l]
    rfl
  refine ⟨step Crypto.xorStream Msgpack.refusing s l, hs.snoc hguard, ?_⟩
  have hvalid : ∀ m r, lookup MountRow.mountId (s.db.mounts ++ [deepMount 257 .active]) m = some r →
      r.state = .active → r.expiresAt = none → r.access = .rw →
      (step Crypto.xorStream Msgpack.refusing s l).db.Writes 0 m r := by
    intro m r hlook hstate hexp haccess
    rw [hdb]
    refine ⟨validMount?_eq_some.mpr ⟨hlook, ?_, ?_⟩, haccess⟩
    · rw [hstate]
      decide
    · rw [hexp]
      rfl
  have htop := hvalid 1 _ (by rw [hdeep.mounts]; rfl) rfl rfl rfl
  have hbottom := hvalid 516 (deepMount 257 .active) (by rw [hdeep.mounts]; rfl) rfl rfl rfl
  intro hapart
  refine hapart 1 516 _ _ htop hbottom (by decide) rfl ?_
  rw [hdb]
  exact hdeep.below_root le_rfl

end Aloelite
