import Aloelite.Strides
import Aloelite.OpsContent
import Aloelite.Library.Numbered

/-! What a manifest holds in a reading of the pool: numbered pieces of data, each
row's pool row showing its piece. Staging and carrying add numbered pieces; reading
returns them in order. -/
namespace Aloelite

open Fallible KeyedRows Relation Numbered

/-- A reading of the pool: what it tells apart of a byte, what a pool row shows it of
a volume's data, and whether it minds a sealed chunk that met a foreign row at its
address. -/
structure Reading (C : Crypto) (σ : Type) where
  glance : UInt8 → σ
  shows : VolumeId → ChunkRow → List σ → Prop
  wary : Bool

/-- The bytes themselves, under each volume's own cipher. -/
def Reading.exact {C : Crypto} (own : VolumeId → Cipher) : Reading C UInt8 where
  glance := id
  shows V ch p := (own V).decryptChunk C ch.data ch.nonce ch.encTag = some p
  wary := true

/-- Lengths only, under any cipher. -/
def Reading.lengths {C : Crypto} : Reading C Unit where
  glance _ := ()
  shows _ ch p := ch.data.length = p.length
  wary := false

/-- Every pool row stands at the address of its data and has its length. -/
def Db.Addressed (C : Crypto) (db : Db) : Prop :=
  ∀ ch ∈ db.chunks, ch.chunkHash = C.chunkHash ch.data ∧ ch.length = ch.data.length

variable {C : Crypto} {σ : Type} {R : Reading C σ} {V : VolumeId} {E : Env} {k : Cipher}
  {db db' : Db} {tx tx' tx'' : Tx} {n m : NodeId} {v w i lo hi : ℕ} {data : Bytes}
  {chunks : List (List σ)} {l l' : List (ℕ × List σ)} {r : VersionRow} {own : VolumeId → Cipher}

/-- A cipher that suits a reading of a volume: what it opens is what the reading
shows, and so is what it seals. -/
structure Reading.Fits (R : Reading C σ) (k : Cipher) (V : VolumeId) : Prop where
  opened : ∀ ch p q, R.shows V ch p → k.decryptChunk C ch.data ch.nonce ch.encTag = some q →
    q.map R.glance = p
  sealed : ∀ rnd data ch, ch.chunkHash = C.chunkHash (k.encryptChunk C rnd data).1 →
    ch.chunkHash = C.chunkHash ch.data →
    (R.wary = true → k.decryptChunk C ch.data ch.nonce ch.encTag = some data) →
    R.shows V ch (data.map R.glance)

theorem Reading.exact_fits : (Reading.exact (C := C) own).Fits (own V) V where
  opened ch p q hp hq := by
    have heq : p = q := Option.some.inj (hp.symm.trans hq)
    rw [heq]
    exact List.map_id q
  sealed rnd data ch _ _ hopen := by
    have hsome := hopen rfl
    show (own V).decryptChunk C ch.data ch.nonce ch.encTag = some (data.map id)
    rw [List.map_id]
    exact hsome

/-- Ciphertexts have the length of what they open to, as the AEAD's do. -/
def Crypto.KeepsLength (C : Crypto) : Prop :=
  ∀ key nonce ct tag p, C.decrypt key nonce ct tag = some p → p.length = ct.length

theorem Cipher.decryptChunk_length (hC : C.KeepsLength) {ct nonce tag p : Bytes}
    (h : k.decryptChunk C ct nonce tag = some p) : p.length = ct.length := by
  cases k with
  | identity =>
    obtain rfl := Option.some.inj h
    rfl
  | chunk key convergent => exact hC _ _ _ _ _ h

theorem Reading.lengths_fits (hC : C.KeepsLength) : (Reading.lengths (C := C)).Fits k V where
  opened ch p q hp hq := by
    have hlen : (q.map fun _ => ()).length = p.length := by
      rw [List.length_map, Cipher.decryptChunk_length hC hq]
      exact hp
    exact List.ext_get hlen (fun _ _ _ => rfl)
  sealed rnd data ch haddr hdata _ := by
    have hct : ch.data = (k.encryptChunk C rnd data).1 :=
      C.chunkHash_injective (hdata.symm.trans haddr)
    show ch.data.length = (data.map fun _ => ()).length
    rw [hct, Cipher.encryptChunk_length, List.length_map]

/-- The pool row of a manifest row shows `p`. -/
def Shows (R : Reading C σ) (V : VolumeId) (db : Db) (r : VersionRow) (p : List σ) : Prop :=
  ∃ ch, db.chunk? r.chunkHash = some ch ∧ R.shows V ch p

/-- A manifest row against a numbered piece. -/
def ShowsAt (R : Reading C σ) (V : VolumeId) (db : Db) (r : VersionRow) (p : ℕ × List σ) : Prop :=
  r.chunkIndex = p.1 ∧ Shows R V db r p.2

/-- Some order of the rows carries the numbers and shows the pieces of `l`. -/
def Matches (R : Reading C σ) (V : VolumeId) (db : Db) (rows : List VersionRow)
    (l : List (ℕ × List σ)) : Prop :=
  ∃ rows', rows.Perm rows' ∧ List.Forall₂ (ShowsAt R V db) rows' l

/-- The manifest of one version of an entry holds the pieces of `l`. -/
def HoldsAt (R : Reading C σ) (V : VolumeId) (db : Db) (n : NodeId) (v : ℕ)
    (l : List (ℕ × List σ)) :
    Prop :=
  Matches R V db (db.manifest n v) l

/-- It holds the whole content `chunks`. -/
def Holds (R : Reading C σ) (V : VolumeId) (db : Db) (n : NodeId) (v : ℕ) (chunks : List (List σ)) :
    Prop :=
  HoldsAt R V db n v (numbered 0 chunks)

/-- No pool row that `rows` refer to is lost or changed. -/
def KeepsChunks (db db' : Db) (rows : List VersionRow) : Prop :=
  ∀ r ∈ rows, ∀ ch, db.chunk? r.chunkHash = some ch → db'.chunk? r.chunkHash = some ch

theorem Shows.mono {p : List σ} (h : Shows R V db r p)
    (hpool : ∀ ch, db.chunk? r.chunkHash = some ch → db'.chunk? r.chunkHash = some ch) :
    Shows R V db' r p := by
  obtain ⟨ch, hch, hshow⟩ := h
  exact ⟨ch, hpool ch hch, hshow⟩

theorem forall₂_mono_left {α β : Type*} {R S : α → β → Prop} {xs : List α} {ys : List β}
    (h : List.Forall₂ R xs ys) (hRS : ∀ a ∈ xs, ∀ b, R a b → S a b) : List.Forall₂ S xs ys := by
  induction h with
  | nil => exact List.Forall₂.nil
  | cons hab _ ih =>
    refine List.Forall₂.cons (hRS _ List.mem_cons_self _ hab) (ih ?_)
    intro a ha b hr
    exact hRS a (List.mem_cons_of_mem _ ha) b hr

theorem Matches.mono {rows : List VersionRow} (h : Matches R V db rows l)
    (hpool : KeepsChunks db db' rows) : Matches R V db' rows l := by
  obtain ⟨rows', hperm, hall⟩ := h
  refine ⟨rows', hperm, forall₂_mono_left hall ?_⟩
  rintro r hr p ⟨hidx, hopen⟩
  exact ⟨hidx, hopen.mono (hpool r (hperm.mem_iff.mpr hr))⟩

theorem Matches.append {rows rows' : List VersionRow} (h : Matches R V db rows l)
    (h' : Matches R V db rows' l') : Matches R V db (rows ++ rows') (l ++ l') := by
  obtain ⟨rs, hperm, hall⟩ := h
  obtain ⟨rs', hperm', hall'⟩ := h'
  exact ⟨rs ++ rs', hperm.append hperm', List.rel_append hall hall'⟩

theorem Matches.perm {rows : List VersionRow} (h : Matches R V db rows l) (hp : l.Perm l') :
    Matches R V db rows l' := by
  obtain ⟨rs, hperm, hall⟩ := h
  obtain ⟨rs', hall', hp'⟩ := List.perm_comp_forall₂ hp.symm hall.flip
  exact ⟨rs', hperm.trans hp'.symm, hall'.flip⟩

theorem Matches.filter {rows : List VersionRow} (h : Matches R V db rows l) (p : ℕ → Bool) :
    Matches R V db (rows.filter (fun r => p r.chunkIndex)) (l.filter (fun x => p x.1)) := by
  obtain ⟨rs, hperm, hall⟩ := h
  refine ⟨_, hperm.filter _, forall₂_filter hall ?_⟩
  rintro r x ⟨hidx, -⟩
  rw [hidx]

/-- The pieces do not depend on which entry and version the rows stand for. -/
theorem Matches.carried {rows : List VersionRow} (h : Matches R V db rows l) (dst : NodeId)
    (version : ℕ) : Matches R V db (Db.carriedRefs rows dst version) l := by
  obtain ⟨rs, hperm, hall⟩ := h
  refine ⟨_, hperm.map _, ?_⟩
  rw [List.forall₂_map_left_iff]
  exact hall

theorem HoldsAt.frame (h : HoldsAt R V db n v l) (hman : db'.manifest n v = db.manifest n v)
    (hpool : KeepsChunks db db' (db.manifest n v)) : HoldsAt R V db' n v l := by
  rw [HoldsAt, hman]
  exact Matches.mono h hpool

theorem holdsAt_nil (h : db.manifest n v = []) : HoldsAt R V db n v [] := by
  rw [HoldsAt, h]
  exact ⟨[], List.Perm.refl [], List.Forall₂.nil⟩

/-! ### Reading -/

/-- What is opened of rows under a cipher that suits is what they show. -/
theorem openChunks_shows {rows : List VersionRow} {parts : List Bytes} (hk : R.Fits k V)
    (h : List.Forall₂ (ShowsAt R V db) rows l)
    (hopen : openChunks C k (rows.filterMap (fun r => db.chunk? r.chunkHash)) = .ok parts) :
    parts.map (List.map R.glance) = l.map Prod.snd := by
  induction h generalizing parts with
  | nil =>
    obtain rfl := Except.ok.inj hopen
    rfl
  | @cons r p rs ps hrp _ ih =>
    obtain ⟨-, ch, hch, hshow⟩ := hrp
    have hhead : (r :: rs).filterMap (fun r => db.chunk? r.chunkHash) =
        ch :: rs.filterMap (fun r => db.chunk? r.chunkHash) := by
      simp [hch]
    rw [hhead, openChunks, List.mapM_cons] at hopen
    simp only [bind_eq_ok, pure_eq_ok, orRaise_eq_ok] at hopen
    obtain ⟨q, hq, qs, hqs, rfl⟩ := hopen
    rw [List.map_cons, List.map_cons, hk.opened ch p.2 q hshow hq, ih hqs]

/-- Under a volume's own cipher all of its rows open. -/
theorem openChunks_exact {rows : List VersionRow} {l : List (ℕ × Bytes)}
    (h : List.Forall₂ (ShowsAt (Reading.exact (C := C) own) V db) rows l) :
    openChunks C (own V) (rows.filterMap (fun r => db.chunk? r.chunkHash)) =
      .ok (l.map Prod.snd) := by
  induction h with
  | nil => rfl
  | @cons r p rs ps hrp _ ih =>
    obtain ⟨-, ch, hch, hopen⟩ := hrp
    have hopen' : (own V).decryptChunk C ch.data ch.nonce ch.encTag = some p.2 := hopen
    rw [openChunks] at ih ⊢
    have hhead : (r :: rs).filterMap (fun r => db.chunk? r.chunkHash) =
        ch :: rs.filterMap (fun r => db.chunk? r.chunkHash) := by
      simp [hch]
    rw [hhead, List.mapM_cons, hopen', List.map_cons, ih]
    rfl

theorem readChunksRange_map_snd : (db.readChunksRange n v lo hi).map Prod.snd =
    (((db.manifest n v).filter (fun r => lo ≤ r.chunkIndex ∧ r.chunkIndex ≤ hi)).insertionSort
      (fun r s => r.chunkIndex ≤ s.chunkIndex)).filterMap (fun r => db.chunk? r.chunkHash) := by
  rw [Db.readChunksRange, List.map_filterMap]
  congr 1
  funext r
  cases db.chunk? r.chunkHash <;> rfl

theorem pairwise_of_forall₂ {rows : List VersionRow} (h : List.Forall₂ (ShowsAt R V db) rows l)
    (hl : l.Pairwise (fun p q => p.1 < q.1)) :
    rows.Pairwise (fun a b => a.chunkIndex < b.chunkIndex) := by
  have hmap : rows.map VersionRow.chunkIndex = l.map Prod.fst := by
    induction h with
    | nil => rfl
    | cons hrp _ ih => rw [List.map_cons, List.map_cons, hrp.1, ih (List.pairwise_cons.mp hl).2]
  rw [← List.pairwise_map (f := VersionRow.chunkIndex) (R := (· < ·)), hmap, List.pairwise_map]
  exact hl

/-- Rows in index order, when they carry consecutive numbers. -/
theorem Matches.sorted {rows : List VersionRow}
    (h : Matches R V db rows (numbered i chunks)) :
    List.Forall₂ (ShowsAt R V db)
      (rows.insertionSort (fun r s => r.chunkIndex ≤ s.chunkIndex)) (numbered i chunks) := by
  obtain ⟨rows', hperm, hall⟩ := h
  have hsorted := pairwise_of_forall₂ hall numbered_pairwise
  rw [insertionSort_eq hperm hsorted]
  exact hall

theorem HoldsAt.range {lo hi : ℕ} (h : Holds R V db n v chunks) :
    Matches R V db ((db.manifest n v).filter (fun r => lo ≤ r.chunkIndex ∧ r.chunkIndex ≤ hi))
      (numbered lo ((chunks.take (hi + 1)).drop lo)) := by
  have hf := Matches.filter h (fun j => lo ≤ j ∧ j ≤ hi)
  rw [filter_numbered] at hf
  exact hf

/-- A range of a content reads as that range of its chunks. -/
theorem Holds.readChunkRange {parts : List Bytes} (hk : R.Fits k V) (h : Holds R V db n v chunks)
    (hread : readChunkRange C k db n v lo hi = .ok parts) :
    parts.map (List.map R.glance) = (chunks.take (hi + 1)).drop lo := by
  rw [Aloelite.readChunkRange, readChunksRange_map_snd] at hread
  rw [openChunks_shows hk (HoldsAt.range h).sorted hread, map_snd_numbered]

theorem Holds.readChunkRange_exact {chunks : List Bytes}
    (h : Holds (Reading.exact (C := C) own) V db n v chunks) (lo hi : ℕ) :
    Aloelite.readChunkRange C (own V) db n v lo hi = .ok ((chunks.take (hi + 1)).drop lo) := by
  rw [Aloelite.readChunkRange, readChunksRange_map_snd, openChunks_exact (HoldsAt.range h).sorted,
    map_snd_numbered]

theorem Holds.readContentBytes_exact {chunks : List Bytes} {c : ContentRow}
    (h : Holds (Reading.exact (C := C) own) V db n c.version chunks) (hc : db.content? n = some c) :
    Aloelite.readContentBytes C (own V) db n = .ok chunks.flatten := by
  rw [Aloelite.readContentBytes, hc]
  simp only [Db.readChunks, openChunks_exact (Matches.sorted h), map_snd_numbered, ok_bind]
  rfl

/-! ### Staging -/

/-- A transaction that added rows to one version of an entry and chunks to the pool,
and nothing else. -/
structure Grown (C : Crypto) (n : NodeId) (v : ℕ) (tx tx' : Tx) : Prop where
  rows : ∃ added, tx'.db.versions = tx.db.versions ++ added ∧
    ∀ r ∈ added, r.contentId = n ∧ r.version = v
  pool : ∃ added, tx'.db.chunks = tx.db.chunks ++ added ∧
    ∀ ch ∈ added, ch.chunkHash = C.chunkHash ch.data ∧ ch.length = ch.data.length
  off : AgreeOff [.chunks, .versions] tx.db tx'.db
  committed : tx'.committed = tx.committed

/-- One whose rows hold the pieces of `l`. -/
structure Staged (R : Reading C σ) (V : VolumeId) (n : NodeId) (v : ℕ) (l : List (ℕ × List σ))
    (tx tx' : Tx) : Prop extends Grown C n v tx tx' where
  matched : ∀ added, tx'.db.versions = tx.db.versions ++ added → Matches R V tx'.db added l
  aliased : R.wary = true → tx.aliased = false

theorem chunk?_append {h : Digest} {ch : ChunkRow} {added : List ChunkRow}
    (hpool : db'.chunks = db.chunks ++ added) (hch : db.chunk? h = some ch) :
    db'.chunk? h = some ch := by
  rw [Db.chunk?, hpool]
  exact lookup_append_of_some hch added

theorem Grown.keepsChunks (h : Grown C n v tx tx') (rows : List VersionRow) :
    KeepsChunks tx.db tx'.db rows := by
  obtain ⟨added, hpool, -⟩ := h.pool
  intro r _ ch hch
  exact chunk?_append hpool hch

theorem Grown.addressed (h : Grown C n v tx tx') (ha : tx.db.Addressed C) : tx'.db.Addressed C := by
  obtain ⟨added, hpool, hnew⟩ := h.pool
  intro ch hch
  rw [hpool] at hch
  rcases List.mem_append.mp hch with hch | hch
  · exact ha ch hch
  · exact hnew ch hch

theorem Grown.refl (tx : Tx) : Grown C n v tx tx where
  rows := ⟨[], by simp, by simp⟩
  pool := ⟨[], by simp, by simp⟩
  off := AgreeOff.refl _ _
  committed := rfl

theorem Grown.trans (h : Grown C n v tx tx') (h' : Grown C n v tx' tx'') : Grown C n v tx tx'' := by
  obtain ⟨added, hrows, hkey⟩ := h.rows
  obtain ⟨added', hrows', hkey'⟩ := h'.rows
  obtain ⟨chs, hpool, hnew⟩ := h.pool
  obtain ⟨chs', hpool', hnew'⟩ := h'.pool
  refine ⟨⟨added ++ added', ?_, ?_⟩, ⟨chs ++ chs', ?_, ?_⟩, h.off.trans h'.off,
    h'.committed.trans h.committed⟩
  · rw [hrows', hrows, List.append_assoc]
  · intro r hr
    rcases List.mem_append.mp hr with hr | hr
    · exact hkey r hr
    · exact hkey' r hr
  · rw [hpool', hpool, List.append_assoc]
  · intro ch hch
    rcases List.mem_append.mp hch with hch | hch
    · exact hnew ch hch
    · exact hnew' ch hch

theorem Staged.refl (hal : R.wary = true → tx.aliased = false) : Staged R V n v [] tx tx where
  toGrown := Grown.refl tx
  matched := by
    intro added hadded
    obtain rfl := List.self_eq_append_right.mp hadded
    exact ⟨[], List.Perm.refl [], List.Forall₂.nil⟩
  aliased := hal

theorem Staged.trans (h : Staged R V n v l tx tx') (h' : Staged R V n v l' tx' tx'') :
    Staged R V n v (l ++ l') tx tx'' := by
  refine ⟨h.toGrown.trans h'.toGrown, ?_, h.aliased⟩
  intro added hadded
  obtain ⟨xs, hxs, -⟩ := h.rows
  obtain ⟨ys, hys, -⟩ := h'.rows
  have hboth : added = xs ++ ys := by
    rw [hys, hxs, List.append_assoc] at hadded
    exact (List.append_cancel_left hadded).symm
  rw [hboth]
  exact ((h.matched xs hxs).mono (h'.keepsChunks xs)).append (h'.matched ys hys)

theorem Staged.perm (h : Staged R V n v l tx tx') (hp : l.Perm l') : Staged R V n v l' tx tx' :=
  ⟨h.toGrown, fun added hadded => (h.matched added hadded).perm hp, h.aliased⟩

theorem manifest_append_self {added : List VersionRow}
    (hrows : db'.versions = db.versions ++ added)
    (hkey : ∀ r ∈ added, r.contentId = n ∧ r.version = v) :
    db'.manifest n v = db.manifest n v ++ added := by
  rw [Db.manifest, hrows, List.filter_append, Db.manifest]
  congr 1
  rw [List.filter_eq_self]
  intro r hr
  simp [hkey r hr]

theorem manifest_append_other {added : List VersionRow}
    (hrows : db'.versions = db.versions ++ added)
    (hkey : ∀ r ∈ added, ¬ (r.contentId = m ∧ r.version = w)) :
    db'.manifest m w = db.manifest m w := by
  rw [Db.manifest, hrows, List.filter_append, Db.manifest]
  have hnil : added.filter (fun r => r.contentId = m ∧ r.version = w) = [] := by
    rw [List.filter_eq_nil_iff]
    intro r hr
    simpa using hkey r hr
  rw [hnil, List.append_nil]

/-- The staged version holds what it held and the new pieces. -/
theorem Staged.holdsAt {l₀ : List (ℕ × List σ)} (h : Staged R V n v l tx tx')
    (h₀ : HoldsAt R V tx.db n v l₀) : HoldsAt R V tx'.db n v (l₀ ++ l) := by
  obtain ⟨added, hrows, hkey⟩ := h.rows
  rw [HoldsAt, manifest_append_self hrows hkey]
  exact (Matches.mono h₀ (h.keepsChunks _)).append (h.matched added hrows)

theorem Grown.manifest_other (h : Grown C n v tx tx') (hne : ¬ (m = n ∧ w = v)) :
    tx'.db.manifest m w = tx.db.manifest m w := by
  obtain ⟨added, hrows, hkey⟩ := h.rows
  refine manifest_append_other hrows ?_
  rintro r hr ⟨rfl, rfl⟩
  exact hne (hkey r hr)

/-- The pool row `stage_chunk` offers for a chunk. -/
def sealedChunk (C : Crypto) (E : Env) (k : Cipher) (tx : Tx) (data : Bytes) : ChunkRow where
  chunkHash := C.chunkHash (k.encryptChunk C (E.random tx.randomCount) data).1
  data := (k.encryptChunk C (E.random tx.randomCount) data).1
  length := data.length
  nonce := (k.encryptChunk C (E.random tx.randomCount) data).2.1
  encTag := (k.encryptChunk C (E.random tx.randomCount) data).2.2

/-- After the upsert of a sealed chunk the pool row at its address shows the data,
unless a foreign row stood there before and that matters. -/
theorem shows_sealedChunk (hk : R.Fits k V) (ha : tx.db.Addressed C)
    (hal : R.wary = true → Tx.aliases C k tx.db (sealedChunk C E k tx data).data data = false)
    (hr : r.chunkHash = (sealedChunk C E k tx data).chunkHash) :
    Shows R V (tx.db.upsertChunk (sealedChunk C E k tx data)) r (data.map R.glance) := by
  rw [Shows, hr]
  cases hch : tx.db.chunk? (sealedChunk C E k tx data).chunkHash with
  | some ch =>
    have hsame : tx.db.upsertChunk (sealedChunk C E k tx data) = tx.db := by
      simp [Db.upsertChunk, hch]
    rw [hsame]
    have hat : ch.chunkHash = (sealedChunk C E k tx data).chunkHash := key_of_lookup hch
    refine ⟨ch, hch, hk.sealed _ data ch hat (ha ch (mem_of_lookup hch)).1 ?_⟩
    intro hwary
    have hnot := hal hwary
    rw [Tx.aliases, show tx.db.chunk? (C.chunkHash (sealedChunk C E k tx data).data) =
      some ch from hch]
      at hnot
    simpa using hnot
  | none =>
    have hadd : tx.db.upsertChunk (sealedChunk C E k tx data) =
        { tx.db with chunks := tx.db.chunks ++ [sealedChunk C E k tx data] } := by
      simp [Db.upsertChunk, hch]
    rw [hadd]
    refine ⟨sealedChunk C E k tx data, lookup_append_self hch, ?_⟩
    exact hk.sealed _ data _ rfl rfl (fun _ => Cipher.decryptChunk_encryptChunk _ k data)

theorem stageChunk_ok (h : tx.stageChunk C E k n v i data = .ok tx') :
    tx'.db = { tx.db.upsertChunk (sealedChunk C E k tx data) with
        versions := tx.db.versions ++ [⟨n, v, i, (sealedChunk C E k tx data).chunkHash⟩] } ∧
      tx'.aliased = (tx.aliased || Tx.aliases C k tx.db (sealedChunk C E k tx data).data data) ∧
      tx'.committed = tx.committed := by
  simp only [Tx.stageChunk, bind_eq_ok] at h
  obtain ⟨tx₁, hup, href⟩ := h
  obtain ⟨db₁, hup', rfl⟩ := Tx.run_ok.mp hup
  obtain rfl := Except.ok.inj hup'
  obtain ⟨db₂, href', rfl⟩ := Tx.run_ok.mp href
  obtain ⟨-, -, -, rfl⟩ := Db.insertChunkRef_ok href'
  obtain ⟨added, hadd, -⟩ := Db.upsertChunk_eq tx.db (sealedChunk C E k tx data)
  have hversions : (tx.db.upsertChunk (sealedChunk C E k tx data)).versions = tx.db.versions := by
    rw [hadd]
  refine ⟨?_, rfl, rfl⟩
  rw [← hversions]
  rfl

/-- What an upsert adds to the pool, if anything, is the row it offers. -/
theorem upsertChunk_pool (db : Db) (row : ChunkRow) :
    ∃ added, db.upsertChunk row = { db with chunks := db.chunks ++ added } ∧ ∀ ch ∈ added, ch =
      row := by
  rw [Db.upsertChunk]
  split
  · exact ⟨[], by simp, by simp⟩
  · exact ⟨[row], rfl, by simp⟩

theorem stageChunk_grown (h : tx.stageChunk C E k n v i data = .ok tx') : Grown C n v tx tx' := by
  obtain ⟨hdb, -, hcommitted⟩ := stageChunk_ok h
  obtain ⟨added, hadd, hnew⟩ := upsertChunk_pool tx.db (sealedChunk C E k tx data)
  refine ⟨⟨[⟨n, v, i, (sealedChunk C E k tx data).chunkHash⟩], by rw [hdb], by simp⟩,
    ⟨added, by rw [hdb, hadd], ?_⟩, Stages.agreeOff (Tx.stageChunk_steps h), hcommitted⟩
  intro ch hch
  rw [hnew ch hch]
  exact ⟨rfl, (Cipher.encryptChunk_length _ k data).symm⟩

/-- A staged chunk shows its data. -/
theorem stageChunk_staged (hk : R.Fits k V) (ha : tx.db.Addressed C)
    (h : tx.stageChunk C E k n v i data = .ok tx') (hal : R.wary = true → tx'.aliased = false) :
    Staged R V n v [(i, data.map R.glance)] tx tx' := by
  obtain ⟨hdb, haliased, -⟩ := stageChunk_ok h
  have hboth : R.wary = true → tx.aliased = false ∧
      Tx.aliases C k tx.db (sealedChunk C E k tx data).data data = false := by
    intro hwary
    have hfalse := hal hwary
    rw [haliased] at hfalse
    simpa using hfalse
  have hshows : Shows R V (tx.db.upsertChunk (sealedChunk C E k tx data))
      ⟨n, v, i, (sealedChunk C E k tx data).chunkHash⟩ (data.map R.glance) :=
    shows_sealedChunk hk ha (fun hwary => (hboth hwary).2) rfl
  refine ⟨stageChunk_grown h, ?_, fun hwary => (hboth hwary).1⟩
  intro added hadded
  have hone : added = [⟨n, v, i, (sealedChunk C E k tx data).chunkHash⟩] := by
    rw [hdb] at hadded
    exact (List.append_cancel_left hadded).symm
  rw [hone]
  refine ⟨_, List.Perm.refl _, List.Forall₂.cons ⟨rfl, ?_⟩ List.Forall₂.nil⟩
  rw [hdb]
  exact hshows.mono (fun _ hch => hch)

theorem stageFrom_staged {chunks : List Bytes} (hk : R.Fits k V) (ha : tx.db.Addressed C)
    (h : tx.stageFrom C E k n v i chunks = .ok tx') (hal : R.wary = true → tx'.aliased = false) :
    Staged R V n v (numbered i (chunks.map (List.map R.glance))) tx tx' := by
  -- the flag is known at the end only, so the last chunk is looked at first
  induction chunks generalizing tx i with
  | nil =>
    obtain rfl := Except.ok.inj h
    exact Staged.refl hal
  | cons data chunks ih =>
    simp only [Tx.stageFrom, bind_eq_ok] at h
    obtain ⟨tx₁, hchunk, hrest⟩ := h
    have ha₁ : tx₁.db.Addressed C := (stageChunk_grown hchunk).addressed ha
    have htail := ih ha₁ hrest
    have hhead := stageChunk_staged hk ha hchunk htail.aliased
    exact hhead.trans htail

theorem splitChunks_ok {cs : ℕ} {parts : List Bytes} (h : splitChunks data cs = .ok parts) :
    parts = Pieces.pieces cs data ∧ (0 < cs ∨ data = []) := by
  simp only [splitChunks, bind_eq_ok, refuse_eq_ok, pure_eq_ok, decide_eq_false_iff_not, not_and]
    at h
  obtain ⟨u, hcs, rfl⟩ := h
  refine ⟨rfl, ?_⟩
  by_cases hd : data = []
  · exact Or.inr hd
  · exact Or.inl (Nat.pos_of_ne_zero (hcs hd))

theorem stageChunks_staged (hk : R.Fits k V) (ha : tx.db.Addressed C)
    (h : tx.stageChunks C E k n v V data = .ok tx') (hal : R.wary = true → tx'.aliased = false) :
    Staged R V n v (numbered 0 (Pieces.pieces (chunkSizeOf tx.db V) (data.map R.glance))) tx tx' ∧
      (0 < chunkSizeOf tx.db V ∨ data = []) := by
  simp only [Tx.stageChunks, bind_eq_ok] at h
  obtain ⟨parts, hparts, hstage⟩ := h
  obtain ⟨rfl, hcs⟩ := splitChunks_ok hparts
  have hstaged := stageFrom_staged hk ha hstage hal
  rw [Pieces.map_pieces] at hstaged
  exact ⟨hstaged, hcs⟩

/-! ### Carrying -/

/-- Rows carried by reference stay within the pool. -/
theorem carried_grown {rows : List VersionRow} {db' : Db}
    (h : tx.db.insertRefs (Db.carriedRefs rows n v) = .ok db') :
    Grown C n v tx { tx with db := db' } := by
  obtain rfl := Db.insertRefs_ok h
  refine ⟨⟨_, rfl, ?_⟩, ⟨[], by simp, by simp⟩, ?_, rfl⟩
  · intro r hr
    obtain ⟨r₀, -, rfl⟩ := List.mem_map.mp hr
    exact ⟨rfl, rfl⟩
  · constructor <;> simp [Db.identities]

/-- They hold in the new version what they held in the old one. -/
theorem carried_staged {rows : List VersionRow} {db' : Db}
    (h : tx.db.insertRefs (Db.carriedRefs rows n v) = .ok db')
    (hrows : Matches R V tx.db rows l) (hal : R.wary = true → tx.aliased = false) :
    Staged R V n v l tx { tx with db := db' } := by
  refine ⟨carried_grown h, ?_, hal⟩
  obtain rfl := Db.insertRefs_ok h
  intro added hadded
  obtain rfl := List.append_cancel_left hadded
  exact (hrows.carried n v).mono (fun _ _ _ hch => hch)

/-- The rows of a range of chunks, carried. -/
theorem copyChunkRefsRange_staged {srcVersion : ℕ}
    (h : tx.run E (.copyChunkRefsRange n v srcVersion lo hi) = .ok tx')
    (hsrc : Matches R V tx.db
      ((tx.db.manifest n srcVersion).filter (fun r => lo ≤ r.chunkIndex ∧ r.chunkIndex ≤ hi)) l)
    (hal : R.wary = true → tx'.aliased = false) : Staged R V n v l tx tx' := by
  obtain ⟨db₁, hcopy, rfl⟩ := Tx.run_ok.mp h
  exact carried_staged hcopy hsrc hal

theorem copyChunkRefs_staged {src : NodeId} {srcVersion : ℕ}
    (h : tx.run E (.copyChunkRefs n v src srcVersion) = .ok tx')
    (hsrc : HoldsAt R V tx.db src srcVersion l) (hal : R.wary = true → tx'.aliased = false) :
    Staged R V n v l tx tx' := by
  obtain ⟨db₁, hcopy, rfl⟩ := Tx.run_ok.mp h
  exact carried_staged hcopy hsrc hal

/-- The first `count` chunks of a version. -/
def HoldsFirst (R : Reading C σ) (V : VolumeId) (db : Db) (n : NodeId) (v count : ℕ)
    (chunks : List (List σ)) : Prop :=
  Matches R V db ((db.manifest n v).filter (fun r => r.chunkIndex < count)) (numbered 0 chunks)

theorem Holds.first (h : Holds R V db n v chunks) (count : ℕ) :
    HoldsFirst R V db n v count (chunks.take count) := by
  have hf := Matches.filter h (fun j => j < count)
  rw [filter_numbered_below] at hf
  exact hf

/-- The leading chunks, carried when there are any. -/
theorem carryLeading_staged {srcVersion count : ℕ}
    (h : carryLeading E tx n v srcVersion count = .ok tx')
    (hsrc : 0 < count → HoldsFirst R V tx.db n srcVersion count chunks)
    (hnone : count = 0 → chunks = []) (hal : R.wary = true → tx'.aliased = false) :
    Staged R V n v (numbered 0 chunks) tx tx' := by
  rw [carryLeading] at h
  split at h
  next hpos =>
    refine copyChunkRefsRange_staged h ?_ hal
    have heq : (tx.db.manifest n srcVersion).filter (fun r => 0 ≤ r.chunkIndex ∧
        r.chunkIndex ≤ count - 1)
        = (tx.db.manifest n srcVersion).filter (fun r => r.chunkIndex < count) := by
      apply List.filter_congr
      intro r _
      have hiff : (0 ≤ r.chunkIndex ∧ r.chunkIndex ≤ count - 1) ↔ r.chunkIndex < count := by omega
      simp only [hiff]
    rw [heq]
    exact hsrc hpos
  next hzero =>
    obtain rfl := Except.ok.inj h
    rw [hnone (by omega), numbered_nil]
    exact Staged.refl hal

end Aloelite
