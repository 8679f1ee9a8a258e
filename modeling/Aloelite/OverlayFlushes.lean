import Aloelite.OverlayCalls

/-! Flushes of an overlay: the stretches go to the engine one by one, each in a moment of its
own, up to the first that is refused. What then is in the file, and what is left in the
overlay. -/
namespace Aloelite

open Attempts Attempt Fallible Patches

variable {C : Crypto} {M : Msgpack} {own : VolumeId → Cipher} {s s' : Sys} {T : ℕ → Moment}
  {turn : ℕ} {ops : List Op} {path : String} {n : NodeId} {a : AloeFuse} {port : Port}
  {inode : Inode} {o : Overlay} {d : FileDaemon} {off size : ℕ} {data ref c : Bytes}
  {es : List (ℕ × Bytes)} {sure : Prop}

/-- A flush puts stretches in place up to the first that is refused. -/
theorem flushExtents_spec (h : Backed C M own a.mount path n d.base.sys)
    (hfilled : ∀ e ∈ es, e.2 ≠ [])
    (htried : Tried C M own a path n sure T d.turn d.base.sys
      (OverlayCall.flushOps a path es ++ ops)) :
    ∃ done rest s' turn, es = done ++ rest ∧ Backed C M own a.mount path n s' ∧
      s'.committed n = Extents.lay 0 (d.base.sys.committed n) done ∧
      (ThereAlready C M T a path n d.turn d.base.sys es ↔
        Extents.lay 0 (Extents.lay 0 (d.base.sys.committed n) done) rest =
          Extents.lay 0 (d.base.sys.committed n) done) ∧
      (rest = [] ∧ a.flushExtents C M T path es d = (d.onSys s' turn, .ok ()) ∧
          Tried C M own a path n sure T turn s' ops ∨
        rest ≠ [] ∧ ¬ sure ∧ ∃ e, a.flushExtents C M T path es d =
          (d.onSys s' turn, .error e)) := by
  induction es generalizing d with
  | nil =>
    refine ⟨[], [], d.base.sys, d.turn, rfl, h, rfl, ⟨fun _ => rfl, fun _ => trivial⟩, ?_⟩
    exact Or.inl ⟨rfl, rfl, htried⟩
  | cons e es ih =>
    have hnext : Tried C M own a path n sure T d.turn d.base.sys
        (.request a.mount (.writeRange path e.1 e.2) :: (OverlayCall.flushOps a path es ++ ops)) :=
      htried
    have hop : Op.request a.mount (.writeRange path e.1 e.2) =
        .request a.mount ((Edit.writeRange e.1 e.2).request path) := rfl
    obtain ⟨hbacked, ⟨hpasses, hcommitted, hthen⟩ | ⟨hfails, hsure, hsame⟩⟩ :=
      h.tried (.writeRange e.1 e.2) hop hnext
    · obtain ⟨reply, hsend⟩ := send_passes hpasses
      let s₁ := (T d.turn).after C M a.conn (.request a.mount (.writeRange path e.1 e.2)) d.base.sys
      have hfirst : a.flushExtents C M T path (e :: es) d =
          a.flushExtents C M T path es (d.onSys s₁ (d.turn + 1)) := bind_of_ok hsend
      rw [hfirst]
      have hothers : ∀ e ∈ es, e.2 ≠ [] := fun e he => hfilled e (List.mem_cons_of_mem _ he)
      obtain ⟨done, rest, s', turn, rfl, hbacked', hcommitted', hthere, hcases⟩ :=
        ih (d := d.onSys s₁ (d.turn + 1)) hbacked hothers hthen
      have hdata : e.2 ≠ [] := hfilled e List.mem_cons_self
      have hpatch : (Edit.writeRange e.1 e.2).reference (d.base.sys.committed n) =
          patch 0 (d.base.sys.committed n) e.1 e.2 := if_neg hdata
      rw [hpatch] at hcommitted
      have hlay := congrArg (fun c => Extents.lay 0 c done) hcommitted
      refine ⟨e :: done, rest, s', turn, rfl, hbacked', hcommitted'.trans hlay, ?_, hcases⟩
      have hlay' : Extents.lay 0 (s₁.committed n) done =
          Extents.lay 0 (d.base.sys.committed n) (e :: done) := hlay
      rw [← hlay', ThereAlready, if_pos hpasses]
      exact hthere
    · obtain ⟨err, hsend⟩ := send_fails hfails
      refine ⟨[], e :: es, _, d.turn + 1, rfl, hbacked, hsame, ?_, ?_⟩
      · rw [ThereAlready, if_neg hfails]
        rfl
      · exact Or.inr ⟨List.cons_ne_nil _ _, hsure, err, bind_of_error hsend⟩

/-! ### What an overlay holds -/

/-- What a flush that was refused leaves of an overlay. -/
def Overlay.left (port : Port) (o : Overlay) : Overlay :=
  match port with
  | .python => o
  | .rust => { o with extents := [] }

/-- An overlay whose stretches over the committed content are the byte array. -/
structure Overlay.Holds (o : Overlay) (c ref : Bytes) : Prop where
  apart : Extents.Apart o.extents
  lays : Extents.lay 0 c o.extents = ref
  size : o.size = ref.length

/-- The stretches in order, none touching the next, and their sum. -/
structure Overlay.Neat (o : Overlay) : Prop where
  ordered : o.extents.Pairwise (fun e e' => Extents.stop e < e'.1)
  dirty : o.dirty = Overlay.held o.extents

theorem Overlay.Holds.taking (h : o.Holds c ref) (hdata : data ≠ []) :
    (o.taking off data).Holds c (patch 0 ref off data) := by
  refine ⟨h.apart.write hdata, ?_, ?_⟩
  · exact (Extents.lay_write h.apart hdata).trans (by rw [h.lays])
  · have hlen : (Extents.lay 0 c o.extents).length = max c.length (Extents.ends o.extents) :=
      Extents.length_lay h.apart.clear
    rw [h.lays] at hlen
    obtain ⟨hge, hle⟩ := @Extents.stop_absorb _ (off, data) o.extents
    change off + data.length ≤ _ at hge
    change _ ≤ max (off + data.length) _ at hle
    change max o.size _ = _
    rw [length_patch, h.size]
    omega

theorem Overlay.Holds.neat (h : o.Holds c ref) (hdata : data ≠ []) : (o.taking off data).Neat :=
  ⟨Extents.write_ordered h.apart hdata, rfl⟩

theorem Overlay.neat_flushed : ({ o with extents := [], dirty := 0 } : Overlay).Neat :=
  ⟨List.Pairwise.nil, rfl⟩

/-- With everything in place the array is the committed content. -/
theorem Overlay.Holds.empty (hc : c = ref) (hsize : size = ref.length) :
    ({ o with extents := [], dirty := 0, size := size } : Overlay).Holds c ref :=
  ⟨Extents.Apart.nil, hc, hsize⟩

/-- What is left where a flush stopped: everything, with a part of it in place already, or
nothing. -/
theorem Overlay.Holds.left_iff {done rest : List (ℕ × Bytes)} (h : o.Holds c ref)
    (hes : o.extents = done ++ rest) :
    (o.left port).Holds (Extents.lay 0 c done) ref ↔ port = .python ∨
      Extents.lay 0 (Extents.lay 0 c done) rest = Extents.lay 0 c done := by
  have hall : Extents.lay 0 (Extents.lay 0 c done) rest = ref := by
    rw [← h.lays, hes, Extents.lay, Extents.lay, Extents.lay, List.foldl_append]
  cases port with
  | python =>
    refine ⟨fun _ => Or.inl rfl, fun _ => ⟨h.apart, ?_, h.size⟩⟩
    have hclear := h.apart.clear
    change Extents.lay 0 (Extents.lay 0 c done) o.extents = ref
    rw [hes] at hclear ⊢
    rw [Extents.lay_again hclear, ← hes, h.lays]
  | rust =>
    rw [hall]
    constructor
    · intro hleft
      exact Or.inr hleft.lays.symm
    · rintro (hport | hsame)
      · cases hport
      · exact ⟨Extents.Apart.nil, hsame.symm, h.size⟩

theorem Overlay.left_path : (o.left port).path = o.path := by cases port <;> rfl

theorem FileDaemon.setOverlay_self (h : d.files inode = some o) :
    d.setOverlay inode (some o) = d := by
  rw [FileDaemon.setOverlay, ← h, Function.update_eq_self]

theorem FileDaemon.setOverlay_twice {x y : Option Overlay} :
    (d.setOverlay inode x).setOverlay inode y = d.setOverlay inode y := by
  simp only [FileDaemon.setOverlay, Function.update_idem]

/-! ### Flushes -/

/-- A flush ends with nothing pending, or at the first stretch that is refused. -/
theorem overlayFlushBy_spec (port : Port) (hfiles : d.files inode = some o)
    (h : Backed C M own a.mount o.path n d.base.sys) (hfilled : ∀ e ∈ o.extents, e.2 ≠ [])
    (htried : Tried C M own a o.path n sure T d.turn d.base.sys
      (OverlayCall.flushOps a o.path o.extents ++ ops)) :
    ∃ done rest s' turn, o.extents = done ++ rest ∧ Backed C M own a.mount o.path n s' ∧
      s'.committed n = Extents.lay 0 (d.base.sys.committed n) done ∧
      (ThereAlready C M T a o.path n d.turn d.base.sys o.extents ↔
        Extents.lay 0 (Extents.lay 0 (d.base.sys.committed n) done) rest =
          Extents.lay 0 (d.base.sys.committed n) done) ∧
      (rest = [] ∧ a.overlayFlushBy C M T port inode o d =
          ((d.onSys s' turn).setOverlay inode (some { o with extents := [], dirty := 0 }), .ok ()) ∧
          Tried C M own a o.path n sure T turn s' ops ∨
        rest ≠ [] ∧ ¬ sure ∧ ∃ e, a.overlayFlushBy C M T port inode o d =
          ((d.onSys s' turn).setOverlay inode (some (o.left port)), .error e)) := by
  cases port with
  | python =>
    obtain ⟨done, rest, s', turn, hes, hbacked, hcommitted, hthere, hcases⟩ :=
      flushExtents_spec h hfilled htried
    refine ⟨done, rest, s', turn, hes, hbacked, hcommitted, hthere, ?_⟩
    rcases hcases with ⟨hrest, hflush, hthen⟩ | ⟨hrest, hsure, e, hflush⟩
    · refine Or.inl ⟨hrest, ?_, hthen⟩
      change a.overlayFlush C M T inode o d = _
      rw [AloeFuse.overlayFlush, bind_of_ok hflush, alter_run]
    · refine Or.inr ⟨hrest, hsure, e, ?_⟩
      have hsame : (d.onSys s' turn).setOverlay inode (some (o.left .python)) = d.onSys s' turn :=
        FileDaemon.setOverlay_self hfiles
      rw [hsame]
      exact bind_of_error hflush
  | rust =>
    obtain ⟨done, rest, s', turn, hes, hbacked, hcommitted, hthere, hcases⟩ :=
      flushExtents_spec (d := d.setOverlay inode (some { o with extents := [] })) h hfilled htried
    refine ⟨done, rest, s', turn, hes, hbacked, hcommitted, hthere, ?_⟩
    have hstart : a.overlayFlushBy C M T .rust inode o d = (do
        a.flushExtents C M T o.path o.extents
        alter (fun d => d.setOverlay inode (some { o with extents := [], dirty := 0 })))
          (d.setOverlay inode (some { o with extents := [] })) := by
      apply bind_of_ok
      rfl
    rw [hstart]
    rcases hcases with ⟨hrest, hflush, hthen⟩ | ⟨hrest, hsure, e, hflush⟩
    · refine Or.inl ⟨hrest, ?_, hthen⟩
      rw [bind_of_ok hflush, alter_run]
      exact congrArg (·, _) (FileDaemon.setOverlay_twice (d := d.onSys s' turn))
    · exact Or.inr ⟨hrest, hsure, e, bind_of_error hflush⟩

/-- Where nothing is refused nothing is lost. -/
theorem Tried.thereAlready (h : Tried C M own a path n True T turn s
    (OverlayCall.flushOps a path es ++ ops)) : ThereAlready C M T a path n turn s es := by
  induction es generalizing turn s with
  | nil => trivial
  | cons e es ih =>
    obtain ⟨-, -, hsure, hthen⟩ := h
    have hpasses : (T turn).Passes C M a.conn (.request a.mount (.writeRange path e.1 e.2)) s :=
      hsure trivial
    rw [ThereAlready, if_pos hpasses]
    exact ih (hthen hpasses)

/-! ### The byte array -/

/-- An overlay that stands for the byte array, over the entry at its path. -/
def OverlayFile.Mirrors (C : Crypto) (M : Msgpack) (own : VolumeId → Cipher) (a : AloeFuse)
    (inode : Inode) (path : String) (n : NodeId) (t : OverlayFile) : Prop :=
  ∃ o, t.d.files inode = some o ∧ o.path = path ∧
    Backed C M own a.mount path n t.d.base.sys ∧ o.Holds (t.d.base.sys.committed n) t.ref

theorem mirrors_setOverlay_iff :
    OverlayFile.Mirrors C M own a inode path n ⟨d.setOverlay inode (some o), ref⟩ ↔
      o.path = path ∧ Backed C M own a.mount path n d.base.sys ∧
        o.Holds (d.base.sys.committed n) ref := by
  have hfiles : (d.setOverlay inode (some o)).files inode = some o := Function.update_self _ _ _
  constructor
  · rintro ⟨o', hfiles', hpath, hbacked, hholds⟩
    obtain rfl : o = o' := Option.some.inj (hfiles.symm.trans hfiles')
    exact ⟨hpath, hbacked, hholds⟩
  · rintro ⟨hpath, hbacked, hholds⟩
    exact ⟨o, hfiles, hpath, hbacked, hholds⟩

/-- A flush leaves an overlay that stands for the same array, unless it is refused where
the stretches are taken out before. -/
theorem overlayFlushBy_mirrors (port : Port) (hfiles : d.files inode = some o)
    (h : Backed C M own a.mount o.path n d.base.sys) (hholds : o.Holds (d.base.sys.committed n) ref)
    (htried : Tried C M own a o.path n sure T d.turn d.base.sys
      (OverlayCall.flushOps a o.path o.extents ++ ops)) :
    ∃ s' turn, Backed C M own a.mount o.path n s' ∧
      (ThereAlready C M T a o.path n d.turn d.base.sys o.extents ∧ s'.committed n = ref ∧
          Tried C M own a o.path n sure T turn s' ops ∧ a.overlayFlushBy C M T port inode o d =
            ((d.onSys s' turn).setOverlay inode (some { o with extents := [], dirty := 0 }),
              .ok ()) ∨
        ¬ sure ∧ (∃ e, a.overlayFlushBy C M T port inode o d =
            ((d.onSys s' turn).setOverlay inode (some (o.left port)), .error e)) ∧
          ((o.left port).Holds (s'.committed n) ref ↔
            port = .python ∨ ThereAlready C M T a o.path n d.turn d.base.sys o.extents)) := by
  obtain ⟨done, rest, s', turn, hes, hbacked, hcommitted, hthere, hcases⟩ :=
    overlayFlushBy_spec port hfiles h hholds.apart.filled htried
  refine ⟨s', turn, hbacked, ?_⟩
  rcases hcases with ⟨rfl, hflush, hthen⟩ | ⟨-, hsure, e, hflush⟩
  · rw [List.append_nil] at hes
    refine Or.inl ⟨hthere.mpr rfl, ?_, hthen, hflush⟩
    rw [hcommitted, ← hes, hholds.lays]
  · refine Or.inr ⟨hsure, ⟨e, hflush⟩, ?_⟩
    rw [hthere, hcommitted]
    exact hholds.left_iff hes

end Aloelite
