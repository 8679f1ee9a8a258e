import Aloelite.EraCrashes

/-! What openings of an older file come to that die between two statements: a whole opening
settles the file, as long as a second rescaling does not touch the times. -/
namespace Aloelite

namespace EraFile

section

variable {text : String → String} {era : ℕ} {f g : EraFile} {t c : String} {T : SqlTable}
  {cs : Finset String} {r : SqlRow}

/-- The times of a first-era file that come through whatever happens: none, zero, and
milliseconds from eleven and a half days after the epoch on that fit in nanoseconds. -/
def TimesFit (f : EraFile) : Prop :=
  ∀ p ∈ TIMES, ∀ T, f.tables p.1 = some T → ∀ r ∈ T.rows, ∀ z, r p.2 = .integer z → z = 0 ∨
    10 ^ 9 ≤ z ∧ z ≤ 9223372036854

theorem Shaped.fine (h : Shaped era f) (htimes : era < 2 → f.TimesFit) : Fine era f := by
  refine ⟨h, fun hera p hp T hT r hr z hz => ?_⟩
  rcases htimes hera p hp T hT r hr z hz with hzero | ⟨hlow, hhigh⟩
  · exact Or.inl hzero
  · refine Or.inr (Or.inl ⟨hlow, ?_⟩)
    rw [MAX_INTEGER]
    omega

/-- The rescaling is the change of unit where the times fit. -/
theorem rescale_eq_inNanoseconds {v : SqlValue}
    (h : ∀ z, v = .integer z → z = 0 ∨ 10 ^ 9 ≤ z ∧ z ≤ 9223372036854) :
    rescale v = inNanoseconds v := by
  cases v with
  | integer z =>
    rcases h z rfl with rfl | ⟨hlow, hhigh⟩
    · rfl
    · rw [rescale_of_lt]
      · rfl
      · rw [NS_BOUND]
        omega
  | null => rfl
  | text s => rfl
  | blob b => rfl

theorem upgraded_eq_settled (h : Shaped era f) (htimes : era < 2 → f.TimesFit) :
    f.upgraded text = f.settled text rescale era := by
  rw [upgraded, h.version]
  apply EraFile.ext
  · funext t
    rw [settled, settled]
    cases hT : f.tables t with
    | none => simp [hT]
    | some T =>
      simp only [hT, settledTable, Option.some.injEq, SqlTable.mk.injEq, true_and]
      apply List.map_congr_left
      intro r hr
      funext c
      rw [EraFile.settledRow, EraFile.settledRow]
      split
      · rename_i hp
        exact (rescale_eq_inNanoseconds fun z hz => htimes hp.1 (t, c) hp.2 T hT r hr z hz).symm
      · rfl
  · rfl
  · rfl
  · rfl
  · rfl
  · rfl

theorem upgraded_column (text : String → String) (hp : (t, c) ∈ TIMES)
    (hversion : f.userVersion = 1) (hthere : (f.tables t).isSome) :
    (f.upgraded text).column t c = (f.column t c).map (List.map inNanoseconds) := by
  obtain ⟨T, hT⟩ := Option.isSome_iff_exists.mp hthere
  rw [column, column, upgraded, settled, hversion]
  simp [hT, settledTable, EraFile.settledRow, hp]

/-- A time that two rescalings and one change of unit agree on. -/
theorem time_fits {z : ℤ} (hfits : overflows (.integer z) = false)
    (honce : rescale (.integer z) = inNanoseconds (.integer z))
    (htwice : rescale (rescale (.integer z)) = inNanoseconds (.integer z)) :
    z = 0 ∨ 10 ^ 9 ≤ z ∧ z ≤ 9223372036854 := by
  have hmax := of_decide_eq_false hfits
  by_cases hlt : 0 < z ∧ z < NS_BOUND
  · rw [honce, inNanoseconds] at htwice
    have hpast : ¬(0 < z * 1000000 ∧ z * 1000000 < NS_BOUND) := by
      intro hagain
      rw [rescale_of_lt hagain] at htwice
      have heq := SqlValue.integer.inj htwice
      omega
    right
    simp only [NS_BOUND, MAX_INTEGER] at hmax hpast hlt
    omega
  · rw [rescale_of_not hlt] at honce
    have heq := SqlValue.integer.inj honce
    omega

end

end EraFile

/-- Whatever crashes come before it, an opening of an older file that completes makes of it
the one file it should become, and a further one changes nothing, just if the file is of the
second era or its times fit. -/
theorem era_migration_iff (text : String → String) {f : EraFile} {era : ℕ} (h : f.Shaped era)
    (hera : era = 1 ∨ era = 2) :
    (∀ g, EraFile.Interrupted text f g → g.openFile text = .ok (f.upgraded text)) ∧
      (f.upgraded text).openFile text = .ok (f.upgraded text) ↔ era = 2 ∨ f.TimesFit := by
  constructor
  · rintro ⟨hall, -⟩
    refine hera.elim (fun hone => Or.inr ?_) Or.inl
    subst hone
    intro p hp T hT r hr z hz
    have hthere : (f.tables p.1).isSome := by
      simp [hT]
    obtain ⟨vs, hcol, hmem⟩ : ∃ vs, f.column p.1 p.2 = some vs ∧ SqlValue.integer z ∈ vs := by
      refine ⟨T.rows.map (fun r => r p.2), ?_, List.mem_map.mpr ⟨r, hr, hz⟩⟩
      rw [EraFile.column, hT]
      rfl
    have hupgraded := EraFile.upgraded_column text hp h.version hthere
    -- once without a crash, and once after one that comes when the times are rescaled
    have hopen := hall f (GuardedRuns.Run.refl f)
    obtain ⟨honce, hfits, d, k, hcrash, hk, hversion, hnode, hthere', hcolumn⟩ :=
      EraFile.openFile_column hp h.version (h.there "node" (by decide)) hthere hopen
    have hagain := hall d (hcrash ▸ (GuardedRuns.Run.refl f).snoc hk)
    have htwice := (EraFile.openFile_column hp hversion hnode hthere' hagain).1
    rw [hupgraded, hcol, Option.map_some, Option.map_some, Option.some.injEq, List.map_inj_left]
      at honce
    rw [hupgraded, hcolumn, hcol, Option.map_some, Option.map_some, Option.map_some,
      Option.some.injEq, List.map_map, List.map_inj_left] at htwice
    exact EraFile.time_fits (hfits _ hcol _ hmem) (honce _ hmem).symm (htwice _ hmem).symm
  · intro hcondition
    have htimes : era < 2 → f.TimesFit := fun hlt => hcondition.resolve_left (by omega)
    rw [EraFile.upgraded_eq_settled h htimes]
    refine ⟨fun g hg => ?_, EraFile.openFile_settled f⟩
    obtain ⟨hfine, hsame⟩ := hg.keeps (h.fine htimes) hera
    rw [EraFile.openFile_fine hfine hera, hsame]

namespace EraFile

/-- A first-era file of a root and an entry `f` in it, which was changed last `ms`
milliseconds after the epoch. -/
def olderTables (ms : ℤ) : List (String × SqlTable) :=
  let row := fun (cells : List (String × SqlValue)) (c : String) =>
    ((cells.find? (fun p => p.1 = c)).map Prod.snd).getD .null
  [("node", ⟨{"node_id", "type", "name", "created_at", "modified_at", "volume_id", "metadata"},
      [row [("node_id", .text "r"), ("name", .text "/"), ("created_at", .integer 1723500000000)],
        row [("node_id", .text "n"), ("name", .text "f"), ("created_at", .integer 1723500000123),
        ("modified_at", .integer ms)]]⟩),
    ("content", ⟨{"node_id", "version", "size", "content_hash", "retention_keep"}, []⟩),
    ("content_chunk", ⟨{"chunk_hash", "data", "length", "N_c", "enc_tag"}, []⟩),
    ("content_version", ⟨{"content_id", "version", "chunk_index", "chunk_hash", "proof"}, []⟩),
    ("volume", ⟨{"volume_id", "root_node_id", "name", "created_at", "api_version", "chunk_size",
    "wm_ts", "wm_seq", "enc_mode",
      "wrapped_key", "wrap_nonce"},
      [row [("volume_id", .text "v"), ("created_at", .integer 1723500000000)]]⟩),
    ("edge", ⟨{"edge_id", "from_id", "to_id", "volume_id", "archived"},
      [row [("from_id", .text "r"), ("to_id", .text "n"), ("archived", .integer 0)]]⟩),
    ("mount", ⟨{"mount_id", "volume_id", "mount_point", "state", "expires_at", "created_at", "N_m"},
    []⟩),
    ("lock", ⟨{"lock_id", "mount_id", "node_id", "read_count", "write_count",
    "expires_at", "created_at"}, []⟩)]

def older (ms : ℤ) : EraFile where
  tables t := ((olderTables ms).find? (fun p => p.1 = t)).map Prod.snd
  indexes n := if n = "edge_active_placement" then some "old" else none
  triggers _ := none
  views n := if n = "node_new" then some "old" else none
  userVersion := 1
  old := ["node_new"]

theorem older_table {ms : ℤ} {t : String} {T : SqlTable} (h : (older ms).tables t = some T) :
    (t, T) ∈ olderTables ms := by
  obtain ⟨⟨u, U⟩, hp, rfl⟩ := Option.map_eq_some_iff.mp h
  obtain rfl : u = t := by simpa using List.find?_some hp
  exact List.mem_of_find?_eq_some hp

theorem older_shaped {ms : ℤ} (hthere : ∀ t ∈ BASE_TABLES, ((older ms).tables t).isSome)
    (hcolumns : ∀ p ∈ olderTables ms, ∀ cs, schemaTable p.1 = some cs →
      cs ⊆ p.2.columns ∪ addedColumns p.1)
    (hplaced : ∀ p ∈ olderTables ms, p.1 = "edge" → ∀ r ∈ p.2.rows, r "to_id" ≠ .null) :
    (older ms).Shaped 1 := by
  refine ⟨rfl, hthere, ?_, fun n hn => Bool.noConfusion hn, ?_, ?_⟩
  · intro t T hT cs hcs c hc
    exact (Finset.mem_union.mp (hcolumns _ (older_table hT) cs hcs hc)).imp_right fun hadded =>
      ⟨by decide, hadded⟩
  · intro n hn
    simp only [older] at hn
    split at hn
    · rename_i hname
      exact List.mem_append_left _ (by simp [older, hname])
    · cases hn
  · intro T hT r hr
    exact hplaced _ (older_table hT) rfl r hr

/-- A time that the rescaling tells from one already rescaled. -/
def timeFits : SqlValue → Bool
  | .integer z => decide (z = 0 ∨ 10 ^ 9 ≤ z ∧ z ≤ 9223372036854)
  | _ => true

/-- A crash among the rescalings, and then an opening that completes. -/
theorem era_migration_iff_crash :
    let f := older 1723500000456
    ((f.crash id 11).openFile id).map (fun g => g.column "node" "modified_at") =
      .ok ((f.upgraded id).column "node" "modified_at") := by
  intro f
  have hshaped : f.Shaped 1 :=
    older_shaped (by decide +kernel) (by decide +kernel) (by decide +kernel)
  have htimes : f.TimesFit := by
    intro p hp T hT r hr z hz
    have hchecked : ∀ p ∈ TIMES, ∀ q ∈ olderTables 1723500000456, q.1 = p.1 → ∀ r ∈ q.2.rows,
        timeFits (r p.2) = true := by
      decide +kernel
    have hrow := hchecked p hp _ (older_table hT) rfl r hr
    rw [hz] at hrow
    exact of_decide_eq_true hrow
  have hopen := ((era_migration_iff id hshaped (Or.inl rfl)).mpr (Or.inr htimes)).1 (f.crash id 11)
    ((GuardedRuns.Run.refl f).snoc (by decide +kernel))
  rw [hopen]
  rfl

/-- Changed five milliseconds after the epoch, and five before. A crash after the rescaling
and a second opening take the one for 1970-01-01T01:23:20; the other is never rescaled. -/
theorem era_migration_breaks_times :
    let after := older 5
    let before := older (-5)
    (after.Shaped 1 ∧ before.Shaped 1 ∧ 16 < after.statements.length) ∧
      ((after.crash id 16).openFile id).map
        (fun g => (g.column "node" "modified_at").bind (fun vs => vs[1]?)) =
        .ok (some (.integer 5000000000000)) ∧
      ((after.upgraded id).column "node" "modified_at").bind (fun vs => vs[1]?) = some
        (.integer 5000000) ∧
      (before.openFile id).map (fun g => (g.column "node" "modified_at").bind (fun vs => vs[1]?)) =
      .ok (some (.integer (-5))) ∧
      ((before.upgraded id).column "node" "modified_at").bind (fun vs => vs[1]?) =
      some (.integer (-5000000)) := by
  intro after before
  refine ⟨⟨older_shaped ?_ ?_ ?_, older_shaped ?_ ?_ ?_, ?_⟩, ?_, ?_, ?_, ?_⟩
  all_goals decide +kernel

end EraFile

end Aloelite
