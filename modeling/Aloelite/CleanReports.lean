import Aloelite.Readback
import Aloelite.Verification
import Aloelite.Unpacking

/-! `verify` raises no false alarm. What a careful run leaves in a file checks clean under the
key of each of its volumes, and the report counts every entry that has bytes. -/
namespace Aloelite

open Fallible KeyedRows Numbered Pieces Relation

variable {C : Crypto} {M : Msgpack} {E : Env} {L : License} {now : Int} {db db' : Db} {s : Sys}
  {c : ContentRow} {op : Op} {st : Stmt} {own : VolumeId → Cipher} {k : Cipher} {n : NodeId}
  {V : VolumeId} {mount : MountId} {deep : Bool}

/-! ### The primary key of `content` -/

/-- What every statement keeps an operation's effect keeps. -/
theorem Strides.keeps {P : Db → Prop}
    (hstmt : ∀ (st : Stmt) (db db' : Db), st.exec now db = .ok db' → P db → P db')
    (h : Strides L now db db') (hp : P db) : P db' := by
  have hsteps {Q : Db → Stmt → Prop} {db db' : Db} (h : Steps Q now db db')
      (hp : P db) : P db' := by
    induction h with
    | refl => exact hp
    | tail _ hstep ih =>
      obtain ⟨st, -, hexec⟩ := hstep
      exact hstmt st _ _ hexec ih
  induction h with
  | refl => exact hp
  | tail _ hstride ih =>
    cases hstride with
    | stmt st hst hexec => exact hstmt st _ _ hexec ih
    | birth row modifiedAt id f hhost hf hrow hfill hedge =>
      have hmade := hsteps hfill (hstmt (.createNode row modifiedAt) _ _ hrow ih)
      exact hstmt (.createEdge id f row.nodeId row.volumeId none) _ _ hedge hmade

abbrev Db.ContentsKeyed (db : Db) : Prop := KeyedRows.Keyed ContentRow.nodeId db.contents

theorem Stmt.contentsKeyed (h : st.exec now db = .ok db') (hk : db.ContentsKeyed) :
    db'.ContentsKeyed := by
  cases st with
  | createContent m version size =>
    obtain ⟨hnone, -, rfl⟩ := Db.createContent_ok h
    exact keyed_append hk hnone
  | updateContent m version size =>
    obtain rfl := Except.ok.inj h
    exact keyed_amend hk (fun _ => rfl)
  | setRetentionKeep m keep =>
    obtain rfl := Except.ok.inj h
    exact keyed_amend hk (fun _ => rfl)
  | pruneNodes volume =>
    obtain ⟨-, -, rfl⟩ := Db.pruneNodes_ok h
    exact keyed_filter hk _
  | _ =>
    rw [Db.ContentsKeyed, (Stmt.exec_agreeOff h).contents (by simp [touches])]
    exact hk

theorem Effect.contentsKeyed (h : Effect C E s op db) (hs : s.db.Sound) (hk : s.db.ContentsKeyed) :
    db.ContentsKeyed := by
  cases h with
  | strides h => exact h.keeps (fun _ _ _ hexec hp => Stmt.contentsKeyed hexec hp) hk
  | founding h =>
    obtain ⟨-, -, -, -, -, hframe, -, -⟩ := createVolume_shape h
    rw [Db.ContentsKeyed, hframe.contents (by simp)]
    exact hk
  | prune h =>
    rw [prune_shape h hs]
    exact hk
  | pruneContent h =>
    rw [pruneContent_shape h]
    exact hk

theorem Reaches.contentsKeyed {guard : Sys → Label → Prop} (h : Reaches C M guard s) :
    s.db.ContentsKeyed := by
  have hboth : s.db.Sound ∧ s.db.ContentsKeyed := by
    refine GuardedRuns.Run.invariant (P := fun s : Sys => s.db.Sound ∧ s.db.ContentsKeyed) ?_ h
      ⟨empty_sound, List.nodup_nil⟩
    intro s l _ hs
    exact ⟨step_sound hs.1, (exec_effect hs.1.linked).contentsKeyed hs.1 hs.2⟩
  exact hboth.2

/-! ### Rows that check clean -/

section Checks

variable {t : ContentTables} {sc : StoredContent}

/-- A row whose chunk stands at its address and opens to its length. -/
def StoredRef.Opens (t : ContentTables) (C : Crypto) (k : Cipher) (r : StoredRef) : Prop :=
  ∃ ch pt, t.chunk? r.chunkHash = some ch ∧ C.chunkHash ch.data = r.chunkHash ∧
    k.decryptChunk C ch.data ch.nonce ch.encTag = some pt ∧ (pt.length : Int) = ch.length

/-- What `checkEntry` and `checkChunk` look at, in order. -/
structure StoredContent.Whole (t : ContentTables) (C : Crypto) (k : Cipher) (sc : StoredContent) :
    Prop where
  indexes : (t.manifest sc.nodeId sc.version).map StoredRef.chunkIndex =
    (List.range (t.manifest sc.nodeId sc.version).length).map Int.ofNat
  opens : ∀ r ∈ t.manifest sc.nodeId sc.version, r.Opens t C k
  total : ((t.manifest sc.nodeId sc.version).filterMap
    (fun r => (t.chunk? r.chunkHash).map StoredChunk.length)).sum = sc.size

theorem nodup_eraseDups {α : Type*} [BEq α] [LawfulBEq α] (xs : List α) : xs.eraseDups.Nodup := by
  match xs with
  | [] => exact List.nodup_nil
  | x :: xs =>
    rw [List.eraseDups_cons, List.nodup_cons]
    refine ⟨?_, nodup_eraseDups _⟩
    intro hx
    rw [List.mem_eraseDups, List.mem_filter] at hx
    simp at hx
termination_by xs.length
decreasing_by exact Nat.lt_succ_of_le (List.length_filter_le _ _)

/-- The keys of `per_node` are those of the entries of the volume that have rows. -/
theorem mem_verifyKeys {key : NodeId × Int} : key ∈ (verifyManifest db t V).map VerifyRow.key ↔
    ∃ sc ∈ t.contents, (db.node? sc.nodeId).any (fun n => n.volumeId = V) ∧
      t.manifest sc.nodeId sc.version ≠ [] ∧
      key = (sc.nodeId, sc.version) := by
  rw [List.mem_map]
  constructor
  · intro hkey
    obtain ⟨row, hrow, rfl⟩ := hkey
    obtain ⟨sc, hsc, hr⟩ := List.mem_flatMap.mp hrow
    obtain ⟨hmem, hvolume⟩ := List.mem_filter.mp ((List.mem_insertionSort _).mp hsc)
    obtain ⟨r, hr', -⟩ := List.mem_map.mp hr
    exact ⟨sc, hmem, hvolume, List.ne_nil_of_mem hr', verifyRows_key hr⟩
  · intro hkey
    obtain ⟨sc, hsc, hvolume, hrows, rfl⟩ := hkey
    obtain ⟨r, hr⟩ := List.exists_mem_of_ne_nil _ hrows
    refine ⟨_, List.mem_flatMap.mpr ⟨sc, ?_, List.mem_map_of_mem hr⟩, rfl⟩
    rw [List.mem_insertionSort]
    exact List.mem_filter.mpr ⟨hsc, hvolume⟩

theorem checkEntry_of_whole (h : sc.Whole t C k) (hrows : t.manifest sc.nodeId sc.version ≠ []) :
    checkEntry ((sc.nodeId, sc.version), verifyRows t sc) = [] := by
  have hindexes : (verifyRows t sc).map VerifyRow.chunkIndex =
      (t.manifest sc.nodeId sc.version).map StoredRef.chunkIndex := by
    rw [verifyRows, List.map_map]
    rfl
  have hsize : ((verifyRows t sc).head?.map VerifyRow.size).getD 0 = sc.size := by
    obtain ⟨ref, refs, hcons⟩ := List.exists_cons_of_ne_nil hrows
    rw [verifyRows, hcons]
    rfl
  have htotal : ((verifyRows t sc).filterMap VerifyRow.chunkLength).sum = sc.size := by
    rw [← h.total, verifyRows, List.filterMap_map]
    rfl
  have hmissing : (verifyRows t sc).filter (fun r => r.chunkLength.isNone) = [] := by
    rw [List.filter_eq_nil_iff]
    intro row hrow
    obtain ⟨r, hr, rfl⟩ := List.mem_map.mp hrow
    obtain ⟨ch, -, hch, -⟩ := h.opens r hr
    rw [hch]
    exact Bool.false_ne_true
  have hgap : (verifyRows t sc).map VerifyRow.chunkIndex =
      (List.range ((verifyRows t sc).map VerifyRow.chunkIndex).length).map Int.ofNat := by
    rw [hindexes, List.length_map]
    exact h.indexes
  simp only [checkEntry, hsize, htotal, hmissing, ne_eq, not_not.mpr hgap, not_true, if_false,
    List.map_nil, List.append_nil]

theorem checkChunk_of_opens {r : StoredRef} (h : r.Opens t C k) :
    checkChunk t C k r.chunkHash = [] := by
  obtain ⟨ch, pt, hch, haddr, hpt, hlen⟩ := h
  simp only [checkChunk, hch, haddr, hpt, hlen, ne_eq, not_true, if_false]

/-- Where every entry of the volume is whole the report has nothing to say, and counts the
entries that have rows. -/
theorem verify_of_whole {m : MountCtx} (hm : requireMount E k db mount false = .ok m)
    (h : ∀ sc ∈ t.contents, (db.node? sc.nodeId).any (fun n => n.volumeId = m.volume) →
      sc.Whole t C k) :
    ∃ report, verify db t C E k mount deep = .ok report ∧ report.problems = [] ∧
      report.entriesChecked =
      (t.contents.filter (fun sc => (db.node? sc.nodeId).any (fun n => n.volumeId = m.volume) ∧
        t.manifest sc.nodeId sc.version ≠ [])).length := by
  have hentries : (perNode (verifyManifest db t m.volume)).flatMap checkEntry = [] := by
    rw [List.flatMap_eq_nil_iff]
    intro e he
    obtain ⟨key, hkey, rfl⟩ := List.mem_map.mp he
    obtain ⟨sc, hsc, hvolume, hrows, rfl⟩ := mem_verifyKeys.mp (List.mem_eraseDups.mp hkey)
    have hown := mem_perNode hsc hvolume hrows
    obtain ⟨key, -, hkey⟩ := List.mem_map.mp hown
    obtain ⟨rfl, hrow⟩ := Prod.mk.inj hkey
    rw [hrow]
    exact checkEntry_of_whole (h sc hsc hvolume) hrows
  have hchunks : (seenChunks (verifyManifest db t m.volume)).flatMap (checkChunk t C k) = [] := by
    rw [List.flatMap_eq_nil_iff]
    intro d hd
    rw [seenChunks, List.mem_eraseDups] at hd
    obtain ⟨row, hrow, rfl⟩ := List.mem_map.mp hd
    obtain ⟨sc, hsc, hr⟩ := List.mem_flatMap.mp (List.mem_filter.mp hrow).1
    obtain ⟨hmem, hvolume⟩ := List.mem_filter.mp ((List.mem_insertionSort _).mp hsc)
    obtain ⟨r, hr', rfl⟩ := List.mem_map.mp hr
    exact checkChunk_of_opens ((h sc hmem hvolume).opens r hr')
  have hcount : (perNode (verifyManifest db t m.volume)).length =
      (t.contents.filter (fun sc => (db.node? sc.nodeId).any (fun n => n.volumeId = m.volume) ∧
        t.manifest sc.nodeId sc.version ≠ [])).length := by
    have hkeyed : ((t.contents.filter
        (fun sc => (db.node? sc.nodeId).any (fun n => n.volumeId = m.volume) ∧
        t.manifest sc.nodeId sc.version ≠ [])).map (fun sc => (sc.nodeId, sc.version))).Nodup := by
      have hids := keyed_filter t.keyed
          (fun sc => (db.node? sc.nodeId).any (fun n => n.volumeId = m.volume) ∧
        t.manifest sc.nodeId sc.version ≠ [])
      apply List.Nodup.of_map Prod.fst
      rw [List.map_map]
      exact hids
    have hsame : ((verifyManifest db t m.volume).map VerifyRow.key).eraseDups.Perm
        ((t.contents.filter (fun sc => (db.node? sc.nodeId).any (fun n => n.volumeId = m.volume) ∧
          t.manifest sc.nodeId sc.version ≠ [])).map (fun sc => (sc.nodeId, sc.version))) := by
      rw [List.perm_ext_iff_of_nodup (nodup_eraseDups _) hkeyed]
      intro key
      rw [List.mem_eraseDups, mem_verifyKeys, List.mem_map]
      constructor
      · intro hkey
        obtain ⟨sc, hsc, hvolume, hrows, rfl⟩ := hkey
        exact ⟨sc, List.mem_filter.mpr ⟨hsc, decide_eq_true ⟨hvolume, hrows⟩⟩, rfl⟩
      · intro hkey
        obtain ⟨sc, hsc, rfl⟩ := hkey
        obtain ⟨hmem, hboth⟩ := List.mem_filter.mp hsc
        exact ⟨sc, hmem, (of_decide_eq_true hboth).1, (of_decide_eq_true hboth).2, rfl⟩
    rw [perNode, List.length_map, hsame.length_eq, List.length_map]
  refine ⟨⟨_, if deep then (seenChunks (verifyManifest db t m.volume)).length else 0, _⟩,
    bind_eq_ok.mpr ⟨m, hm, rfl⟩, ?_, hcount⟩
  · cases deep with
    | false => exact (List.append_nil _).trans hentries
    | true => exact List.append_eq_nil_iff.mpr ⟨hentries, hchunks⟩

end Checks

/-! ### The engine's own files -/

/-- A version that is kept is whole under a cipher that opens what it shows. -/
theorem Kept.whole {data : Bytes} (hC : C.KeepsLength) (ha : db.Addressed C) (hk : db.ContentsKeyed)
    (h : Kept (Reading.exact (C := C) own) V db c.nodeId c.version c.size data) :
    StoredContent.Whole (ContentTables.of db hk) C (own V) ⟨c.nodeId, c.version, c.size⟩ := by
  have hrows := Matches.sorted h.holds
  have hchunk {d : Digest} {ch : ChunkRow}
      (hch : db.chunk? d = some ch) : (ContentTables.of db hk).chunk? d =
      some ⟨ch.chunkHash, ch.data, ch.length, ch.nonce, ch.encTag⟩ := by
    have hmap := ContentTables.of_chunk? (h := hk) d
    rw [hch] at hmap
    exact hmap
  have hmanifest : (ContentTables.of db hk).manifest c.nodeId c.version =
      ((db.manifest c.nodeId c.version).insertionSort (fun r s => r.chunkIndex ≤ s.chunkIndex)).map
        (fun r => ⟨r.contentId, r.version, r.chunkIndex, r.chunkHash⟩) :=
          ContentTables.of_manifest _ _
  -- no gap in the indexes, every row's chunk is there and opens, and the lengths add up
  refine ⟨?_, ?_, ?_⟩
  · have hcount : ((db.manifest c.nodeId c.version).insertionSort
        (fun r s => r.chunkIndex ≤ s.chunkIndex)).length =
        (pieces (chunkSizeOf db V) (data.map (Reading.exact (C := C) own).glance)).length := by
      rw [hrows.length_eq, ← List.length_map Prod.snd, map_snd_numbered]
    have hindexes : ((db.manifest c.nodeId c.version).insertionSort
        (fun r s => r.chunkIndex ≤ s.chunkIndex)).map
        VersionRow.chunkIndex = List.range ((db.manifest c.nodeId c.version).insertionSort
          (fun r s => r.chunkIndex ≤ s.chunkIndex)).length := by
      rw [map_eq_of_forall₂ hrows (fun r q hq => hq.1), map_fst_numbered, hcount,
        List.range_eq_range']
    show ((ContentTables.of db hk).manifest c.nodeId c.version).map StoredRef.chunkIndex =
      (List.range ((ContentTables.of db hk).manifest c.nodeId c.version).length).map Int.ofNat
    rw [hmanifest, List.length_map, ← hindexes, List.map_map, List.map_map]
    rfl
  · intro r hr
    obtain ⟨r, hr', rfl⟩ := List.mem_map.mp (hmanifest ▸ hr)
    obtain ⟨q, -, -, ch, hch, hpt⟩ := exists_of_forall₂_right hrows.flip hr'
    have haddr := ha ch (mem_of_lookup hch)
    refine ⟨⟨ch.chunkHash, ch.data, ch.length, ch.nonce, ch.encTag⟩, q.2, hchunk hch, ?_, hpt, ?_⟩
    · exact haddr.1.symm.trans (key_of_lookup hch)
    · exact congrArg Nat.cast ((Cipher.decryptChunk_length hC hpt).trans haddr.2.symm)
  · have hlengths : ((db.manifest c.nodeId c.version).insertionSort
        (fun r s => r.chunkIndex ≤ s.chunkIndex)).map
        (fun r => ((ContentTables.of db hk).chunk? r.chunkHash).map StoredChunk.length) =
          (numbered 0 (pieces (chunkSizeOf db V)
            (data.map (Reading.exact (C := C) own).glance))).map
            (fun q => some (q.2.length : Int)) := by
      apply map_eq_of_forall₂ hrows
      intro r q hq
      obtain ⟨-, ch, hch, hpt⟩ := hq
      have hlen : q.2.length = ch.length :=
        (Cipher.decryptChunk_length hC hpt).trans (ha ch (mem_of_lookup hch)).2.symm
      rw [hchunk hch, hlen]
      rfl
    have hflat : ((pieces (chunkSizeOf db V) (data.map (Reading.exact (C := C) own).glance)).map
        List.length).sum = c.size := by
      rw [← List.length_flatten, h.size]
      rcases h.chunked with hpos | rfl
      · rw [flatten_pieces hpos, List.length_map]
      · rw [List.map_nil, pieces_nil]
        rfl
    show (((ContentTables.of db hk).manifest c.nodeId c.version).filterMap _).sum = (c.size : Int)
    have hpresent : ∀ {rows : List VersionRow} {g : VersionRow → Option Int}
        {qs : List (ℕ × List UInt8)},
        rows.map g = qs.map (fun q => some (q.2.length : Int)) → rows.filterMap g =
        (qs.map Prod.snd).map (fun p => (p.length : Int)) := by
      intro rows g qs heq
      rw [← Function.id_comp g, ← List.filterMap_map, heq, List.filterMap_map, List.map_map]
      exact congrFun List.filterMap_eq_map qs
    have hsum := congrArg List.sum (hpresent hlengths)
    rw [map_snd_numbered] at hsum
    rw [hmanifest, List.filterMap_map, ← hflat, Nat.cast_list_sum, List.map_map]
    exact hsum

/-- An entry has manifest rows just where it has bytes. -/
theorem Kept.rows_iff {data : Bytes}
    (h : Kept (Reading.exact (C := C) own) V db c.nodeId c.version c.size data) :
    db.manifest c.nodeId c.version ≠ [] ↔ c.size ≠ 0 := by
  obtain ⟨rows, hperm, hall⟩ := h.holds
  have hcount : (db.manifest c.nodeId c.version).length =
      (pieces (chunkSizeOf db V) (data.map (Reading.exact (C := C) own).glance)).length := by
    rw [hperm.length_eq, hall.length_eq, ← List.length_map Prod.snd, map_snd_numbered]
  have hsize := h.size
  rw [← List.length_pos_iff, hcount, length_pieces, List.length_map, ← hsize]
  rcases h.chunked with hpos | rfl
  · rw [Nat.div_pos_iff]
    omega
  · have hnone : (0 + chunkSizeOf db V - 1) / chunkSizeOf db V = 0 := by
      rcases Nat.eq_zero_or_pos (chunkSizeOf db V) with hzero | hpos
      · rw [hzero, Nat.div_zero]
      · exact Nat.div_eq_of_lt (by omega)
    rw [List.length_nil] at hsize
    rw [hsize, hnone]
    exact ⟨fun h => absurd h (lt_irrefl 0), fun h => absurd rfl h⟩

/-- In every state a careful run reaches, `verify` under the key of a volume finds nothing amiss
in it, deep or not, and has checked each of its entries that has bytes. -/
theorem verify_clean {m : MountCtx} (hC : C.KeepsLength) (h : Reaches C M (Careful C M own) s)
    (hm : requireMount E (own m.volume) s.db mount false = .ok m) :
    ∃ report, verify s.db (ContentTables.of s.db h.contentsKeyed) C E (own m.volume) mount deep =
      .ok report ∧
      report.problems = [] ∧ report.entriesChecked =
        (s.db.contents.filter
          (fun c => s.db.home? c.nodeId = some m.volume ∧ c.size ≠ 0)).length := by
  have hstored := h.orderly.writers.stored.1
  have hcontent : ∀ c ∈ s.db.contents, ∃ V, s.db.home? c.nodeId = some V ∧
      Kept (Reading.exact (C := C) own) V s.db c.nodeId c.version c.size
        (s.committed c.nodeId) := by
    intro c hc
    exact hstored.content _ c (lookup_eq_some_of_mem h.contentsKeyed hc)
  have hvolume (n : NodeId) : (s.db.node? n).any (fun r => r.volumeId = m.volume) = true ↔
      s.db.home? n = some m.volume := by
    rw [Db.home?, Option.any_eq_true, Option.map_eq_some_iff]
    simp only [decide_eq_true_eq]
  -- what a careful run leaves of an entry is what `verify` looks for
  have hwhole : ∀ sc ∈ (ContentTables.of s.db h.contentsKeyed).contents,
      (s.db.node? sc.nodeId).any (fun r => r.volumeId = m.volume) →
      sc.Whole (ContentTables.of s.db h.contentsKeyed) C (own m.volume) := by
    intro sc hsc hown
    obtain ⟨c, hc, rfl⟩ := List.mem_map.mp hsc
    obtain ⟨V, hV, hkept⟩ := hcontent c hc
    obtain rfl : V = m.volume := Option.some.inj (hV.symm.trans ((hvolume c.nodeId).mp hown))
    exact hkept.whole hC hstored.addressed h.contentsKeyed
  obtain ⟨report, hreport, hclean, hcount⟩ := verify_of_whole hm hwhole
  refine ⟨report, hreport, hclean, hcount.trans ?_⟩
  rw [ContentTables.of, List.filter_map, List.length_map]
  refine congrArg List.length (List.filter_congr ?_)
  intro c hc
  obtain ⟨V, -, hkept⟩ := hcontent c hc
  have hmanifest : (ContentTables.of s.db h.contentsKeyed).manifest c.nodeId c.version ≠ [] ↔
      c.size ≠ 0 := by
    rw [ContentTables.of_manifest, ← hkept.rows_iff, ne_eq,
      List.map_eq_nil_iff, ← List.length_eq_zero_iff,
      (List.perm_insertionSort _ _).length_eq, List.length_eq_zero_iff]
  exact decide_eq_decide.mpr (and_congr (hvolume c.nodeId) hmanifest)

theorem verify_clean_sealed : ∃ (s : Sys) (hk : s.db.ContentsKeyed) (report : VerifyReport),
    Reaches Crypto.xorStream .refusing (Careful Crypto.xorStream .refusing sealedKey) s ∧
      verify s.db (ContentTables.of s.db hk) Crypto.xorStream (.counting 10) (sealedKey 1) 2 true =
        .ok report ∧
      report.problems = [] ∧ report.entriesChecked = 1 := by
  let s := sealedRun.foldl (step Crypto.xorStream Msgpack.refusing) {}
  have hreach : Reaches Crypto.xorStream .refusing (Careful Crypto.xorStream .refusing sealedKey)
      s := reaches_foldl sealedRun_guards
  have hm : requireMount (.counting 10) (sealedKey 1) s.db 2 false =
      .ok ⟨2, 1, 1, .convergent⟩ := by rfl
  have hone : (s.db.contents.filter (fun c => s.db.home? c.nodeId = some 1 ∧ c.size ≠ 0)).length =
      1 := by rfl
  obtain ⟨report, hreport, hclean, hcount⟩ := verify_clean xorStream_keepsLength hreach hm
  exact ⟨s, hreach.contentsKeyed, report, hreach, hreport, hclean, hcount.trans hone⟩

end Aloelite
