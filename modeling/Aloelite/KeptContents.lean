import Aloelite.Readback
import Aloelite.Naming

/-! Transactions that write no entry there was: each row of a document that is unpacked gets a
new node and fills it, and what every entry before it held stays. -/
namespace Aloelite

open Fallible KeyedRows Relation

variable {C : Crypto} {E : Env} {k : Cipher} {tx tx' tx₁ tx₂ tx₃ : Tx} {n : NodeId} {v size : ℕ}
  {data : Bytes}

theorem stageFrom_grown {i : ℕ} {chunks : List Bytes}
    (h : tx.stageFrom C E k n v i chunks = .ok tx') :
    Grown C n v tx tx' := by
  induction chunks generalizing tx i with
  | nil =>
    obtain rfl := Except.ok.inj h
    exact Grown.refl tx
  | cons chunk chunks ih =>
    simp only [Tx.stageFrom, bind_eq_ok] at h
    obtain ⟨tx₁, hchunk, hrest⟩ := h
    exact (stageChunk_grown hchunk).trans (ih hrest)

/-- A transaction that left every entry there was with what it held. -/
structure KeepsContents (tx tx' : Tx) : Prop where
  present : ∀ m, (tx.db.content? m).isSome → (tx'.db.content? m).isSome
  committed : ∀ m, (tx.db.content? m).isSome → tx'.committed m = tx.committed m
  aliased : tx'.aliased = false → tx.aliased = false

theorem KeepsContents.trans (h : KeepsContents tx tx₁) (h' : KeepsContents tx₁ tx') :
    KeepsContents tx tx' :=
  ⟨fun m hm => h'.present m (h.present m hm),
    fun m hm => (h'.committed m (h.present m hm)).trans (h.committed m hm),
    fun hal => h.aliased (h'.aliased hal)⟩

theorem Calm.keepsContents (h : Calm tx tx') : KeepsContents tx tx' where
  present m hm := by rwa [content?_isSome_of_meta (h.contents m)]
  committed m _ := by rw [h.committed]
  aliased hal := h.aliased ▸ hal

theorem Grown.keepsContents (h : Grown C n v tx tx')
    (hal : tx'.aliased = false → tx.aliased = false) :
    KeepsContents tx tx' where
  present m hm := by rwa [h.content]
  committed m _ := by rw [h.committed]
  aliased := hal

/-- An entry's first content. -/
theorem KeepsContents.of_createContent (h : tx.run E (.createContent n v size) = .ok tx₁)
    (data : Bytes) :
    KeepsContents tx (tx₁.gives n data) := by
  obtain ⟨db₁, hexec, rfl⟩ := Tx.run_ok.mp h
  obtain ⟨hnone, -, rfl⟩ := Db.createContent_ok hexec
  refine ⟨?_, ?_, fun hal => hal⟩
  · intro m hm
    obtain ⟨c, hc⟩ := Option.isSome_iff_exists.mp hm
    exact Option.isSome_iff_exists.mpr ⟨c, lookup_append_of_some hc _⟩
  · intro m hm
    have hne : m ≠ n := by
      rintro rfl
      rw [hnone] at hm
      cases hm
    exact Function.update_of_ne hne data tx.committed

theorem newNode_keepsContents {ctx : MountCtx} {type : NodeType} {name : String}
    {createdAt modifiedAt : Option Int} {metadata : Metadata}
    (h : newNode E tx ctx type name createdAt modifiedAt metadata = .ok (tx', n)) :
    KeepsContents tx tx' := by
  obtain ⟨-, db₁, hrow, rfl⟩ := newNode_ok h
  obtain ⟨-, -, rfl⟩ := Db.createNode_ok hrow
  exact ⟨fun _ hm => hm, fun _ _ => rfl, fun hal => hal⟩

theorem putInitialContent_keepsContents {ctx : MountCtx}
    (h : putInitialContent C E k tx ctx n data = .ok tx') :
    KeepsContents tx tx' := by
  simp only [putInitialContent, bind_eq_ok] at h
  obtain ⟨tx₁, hcreate, h⟩ := h
  have hfirst := KeepsContents.of_createContent hcreate data
  split at h
  · obtain rfl := Except.ok.inj h
    exact hfirst
  · simp only [Tx.stageChunks, bind_eq_ok] at h
    obtain ⟨parts, -, hstage⟩ := h
    exact hfirst.trans ((stageFrom_grown hstage).keepsContents (Tx.stageFrom_aliased hstage))

theorem unpackNode_keepsContents {ctx : MountCtx} {parent : NodeId} {s t : Tx × List NodeId}
    {pn : PackNode} (h : unpackNode C E k ctx parent s pn = .ok t) : KeepsContents s.1 t.1 := by
  simp only [unpackNode, bind_eq_ok, pure_eq_ok] at h
  obtain ⟨type, -, target, -, metadata, -, u, -, ⟨tx₁, new⟩, hnew, tx₂, hfill, tx₃, hlink, tx₄,
    howner, tx₅,
    hxattrs, tx₆, hretention, rfl⟩ := h
  have hcalm : Calm tx₂ tx₆ := (linkChild_calm hlink).trans
    (((restoreOwner_calm howner).trans (restoreXattrs_calm hxattrs)).trans
      (restoreRetention_calm hretention))
  have hborn := newNode_keepsContents hnew
  rw [fillUnpacked] at hfill
  split at hfill
  · obtain rfl := Except.ok.inj hfill
    exact hborn.trans hcalm.keepsContents
  · exact (hborn.trans (putInitialContent_keepsContents hfill)).trans hcalm.keepsContents

end Aloelite
