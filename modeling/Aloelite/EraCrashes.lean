import Aloelite.EraOpenings

/-! Openings that die between two statements, and what one opening does to a column of times: it
rescales it once. -/
namespace Aloelite

namespace EraFile

variable {text : String → String} {scale : SqlValue → SqlValue} {era : ℕ} {f g : EraFile}
  {t c : String} {T : SqlTable} {cs : Finset String} {r : SqlRow}

/-! ### Crashes -/

/-- The files that openings leave which die or fail before their last statement. -/
def Interrupted (text : String → String) : EraFile → EraFile → Prop :=
  GuardedRuns.Run (crash text) (fun g k => k < g.statements.length)

theorem crash_keeps (text : String → String) {k : ℕ} (h : Fine era f) (hera : era = 1 ∨ era = 2)
    (hk : k < f.statements.length) :
    Fine era (f.crash text k) ∧ (f.crash text k).settled text rescale era =
      f.settled text rescale era := by
  rw [crash]
  split
  · exact ⟨h, rfl⟩
  apply Reruns.cut_keeps (P := fun g => Fine era g ∧ g.settled text rescale era =
    f.settled text rescale era) ?_ ⟨h, rfl⟩
  rintro s hs d g ⟨hd, hsame⟩ hexec
  -- every statement before the last is allowed
  have hallowed : Allowed era s := by
    rw [h.toShaped.statements hera] at hs hk
    rw [List.length_append, List.length_singleton] at hk
    rw [List.take_append_of_le_length (by omega)] at hs
    have hmem := List.mem_of_mem_take hs
    rw [List.mem_append, List.mem_append] at hmem
    rcases hmem with (hmem | hmem) | hmem
    · exact migrations_allowed hmem
    · rw [drops, List.mem_append] at hmem
      rcases hmem with hmem | hmem
      · obtain ⟨n, -, rfl⟩ := List.mem_map.mp hmem
        trivial
      · obtain ⟨n, -, rfl⟩ := List.mem_map.mp hmem
        trivial
    · exact script_allowed hmem
  obtain ⟨hg, hsettled⟩ := exec_allowed hd hallowed hexec
  exact ⟨hg, hsettled.trans hsame⟩

theorem Interrupted.keeps (hrun : Interrupted text f g) (h : Fine era f)
    (hera : era = 1 ∨ era = 2) :
    Fine era g ∧ g.settled text rescale era = f.settled text rescale era := by
  refine GuardedRuns.Run.invariant (P := fun g => Fine era g ∧ g.settled text rescale era =
    f.settled text rescale era) ?_ hrun ⟨h, rfl⟩
  rintro d k hk ⟨hd, hsame⟩
  obtain ⟨hg, hsettled⟩ := crash_keeps text hd hera hk
  exact ⟨hg, hsettled.trans hsame⟩

/-- A settled file is opened without a change. -/
theorem openFile_settled (f : EraFile) :
    (f.settled text scale era).openFile text = .ok (f.settled text scale era) := by
  have hversion : (f.settled text scale era).userVersion = SCHEMA_ERA := rfl
  rw [openFile, if_neg (by rw [hversion]; exact lt_irrefl _), EraFile.statements,
    if_neg (by rw [hversion]; exact lt_irrefl _),
    List.nil_append]
  apply Reruns.run_idle
  intro s hs
  rcases List.mem_append.mp hs with hs | hs
  · have hagrees := script_agrees s hs
    cases s with
    | addColumn t c v => exact hagrees.elim
    | scaleTimes t c => exact hagrees.elim
    | dropIndex n => exact hagrees.elim
    | stamp => exact hagrees.elim
    | nameEdges => exact hagrees.elim
    | dropTrigger n => exact hagrees.elim
    | dropView n => exact hagrees.elim
    | createTable t cs =>
      have hthere : ((f.settled text scale era).tables t).isSome := by
        rw [settled]
        cases hT : f.tables t with
        | none => simp [hT, hagrees.1]
        | some T => simp [hT]
      rw [exec, if_pos hthere]
    | createIndex n t cs =>
      have hthere : ((f.settled text scale era).indexes n).isSome := by
        rw [settled]
        cases hn : f.indexes n with
        | none => simp [hn, hagrees.1, hagrees.2.1]
        | some x => simp [hn, hagrees.2.1]
      rw [exec, if_pos hthere]
    | createTrigger n =>
      have hthere : ((f.settled text scale era).triggers n).isSome := by
        simp [settled, hagrees.1]
      rw [exec, if_pos hthere]
    | createView n =>
      have hthere : ((f.settled text scale era).views n).isSome := by
        simp [settled, hagrees.1]
      rw [exec, if_pos hthere]
    | recreateView n =>
      have hthere : (f.settled text scale era).views n = some (text n) := by
        simp [settled, hagrees.1]
      rw [exec, ← hthere, Function.update_eq_self]
  · obtain rfl := List.mem_singleton.mp hs
    rfl

/-! ### The other way -/

/-- A column of a table, row by row. -/
def column (f : EraFile) (t c : String) : Option (List SqlValue) :=
  (f.tables t).map (fun T => T.rows.map (fun r => r c))

theorem column_setTable_ne {u : String} (h : t ≠ u) :
    (f.setTable u T).column t c = f.column t c := by
  rw [column, column, setTable_ne _ _ h]

theorem isSome_setTable {u : String} (h : (f.tables t).isSome) :
    ((f.setTable u T).tables t).isSome := by
  by_cases htu : t = u
  · subst htu
    simp
  · rwa [setTable_ne _ _ htu]

/-- A column of times is touched by its own rescaling only. -/
theorem exec_column {s : EraStmt} (hp : (t, c) ∈ TIMES) (hs : Allowed era s ∨ s = .stamp)
    (hne : s ≠ .scaleTimes t c) (hthere : (f.tables t).isSome) (hexec : exec text s f = .ok g) :
    (g.tables t).isSome ∧ g.column t c = f.column t c := by
  -- what is written elsewhere leaves the column; the added columns are none of times
  cases s with
  | addColumn u d v =>
    obtain ⟨-, hmem⟩ := hs.resolve_right nofun
    rw [exec] at hexec
    split at hexec
    · rename_i T hT
      obtain rfl := Except.ok.inj hexec
      refine ⟨isSome_setTable hthere, ?_⟩
      by_cases htu : t = u
      · subst htu
        have hdc : c ≠ d := fun heq => (added_spec _ hmem).1 (heq ▸ hp)
        rw [column, column, setTable_self, hT, SqlTable.addColumn]
        split
        · rfl
        · simp [hdc]
      · exact column_setTable_ne htu
    · cases hexec
  | scaleTimes u d =>
    rw [exec] at hexec
    split at hexec
    · rename_i T hT
      split at hexec
      · cases hexec
      split at hexec
      · cases hexec
      obtain rfl := Except.ok.inj hexec
      refine ⟨isSome_setTable hthere, ?_⟩
      by_cases htu : t = u
      · subst htu
        have hdc : c ≠ d := fun heq => hne (heq ▸ rfl)
        rw [column, column, setTable_self, hT, SqlTable.rescaled]
        simp [hdc]
      · exact column_setTable_ne htu
    · cases hexec
  | nameEdges =>
    rw [exec] at hexec
    split at hexec
    · split at hexec
      · cases hexec
      obtain rfl := Except.ok.inj hexec
      exact ⟨isSome_setTable hthere, column_setTable_ne (times_spec _ hp).2.2.2.1⟩
    · cases hexec
  | createTable u cs =>
    rw [exec] at hexec
    obtain rfl := Except.ok.inj hexec
    split
    · exact ⟨hthere, rfl⟩
    · rename_i hnone
      have htu : t ≠ u := fun heq => hnone (heq ▸ hthere)
      exact ⟨isSome_setTable hthere, column_setTable_ne htu⟩
  | createIndex n u cs =>
    rw [exec] at hexec
    split at hexec
    · obtain rfl := Except.ok.inj hexec
      exact ⟨hthere, rfl⟩
    split at hexec
    · split at hexec
      · obtain rfl := Except.ok.inj hexec
        exact ⟨hthere, rfl⟩
      · cases hexec
    · cases hexec
  | createTrigger n =>
    rw [exec] at hexec
    obtain rfl := Except.ok.inj hexec
    split
    · exact ⟨hthere, rfl⟩
    · exact ⟨hthere, rfl⟩
  | createView n =>
    rw [exec] at hexec
    obtain rfl := Except.ok.inj hexec
    split
    · exact ⟨hthere, rfl⟩
    · exact ⟨hthere, rfl⟩
  | dropIndex n =>
    obtain rfl := Except.ok.inj hexec
    exact ⟨hthere, rfl⟩
  | dropTrigger n =>
    obtain rfl := Except.ok.inj hexec
    exact ⟨hthere, rfl⟩
  | dropView n =>
    obtain rfl := Except.ok.inj hexec
    exact ⟨hthere, rfl⟩
  | recreateView n =>
    obtain rfl := Except.ok.inj hexec
    exact ⟨hthere, rfl⟩
  | stamp =>
    obtain rfl := Except.ok.inj hexec
    exact ⟨hthere, rfl⟩

theorem run_column {ss : List EraStmt} (hp : (t, c) ∈ TIMES)
    (hss : ∀ s ∈ ss, (Allowed era s ∨ s = .stamp) ∧ s ≠ .scaleTimes t c)
    (hthere : (f.tables t).isSome) (hrun : Reruns.run (exec text) ss f = .ok g) :
    (g.tables t).isSome ∧ g.column t c = f.column t c := by
  refine Reruns.run_keeps (P := fun d => (d.tables t).isSome ∧ d.column t c = f.column t c) ?_
    ⟨hthere, rfl⟩ hrun
  rintro s hs d d' ⟨hd, hsame⟩ hexec
  obtain ⟨hd', hkept⟩ := exec_column hp (hss s hs).1 (hss s hs).2 hd hexec
  exact ⟨hd', hkept.trans hsame⟩

/-- A run that rescales a column of times once. -/
theorem run_column_once {pre post : List EraStmt} (hp : (t, c) ∈ TIMES)
    (hpre : ∀ s ∈ pre, (Allowed era s ∨ s = .stamp) ∧ s ≠ .scaleTimes t c)
    (hpost : ∀ s ∈ post, (Allowed era s ∨ s = .stamp) ∧ s ≠ .scaleTimes t c)
    (hthere : (f.tables t).isSome)
    (hrun : Reruns.run (exec text) (pre ++ .scaleTimes t c :: post) f = .ok g) :
    (g.tables t).isSome ∧ g.column t c = (f.column t c).map (List.map rescale) ∧ ∀ vs,
      f.column t c = some vs → ∀ v ∈ vs, overflows v = false := by
  obtain ⟨f₁, hrun₁, hrest⟩ := Reruns.run_append_inv hrun
  obtain ⟨hthere₁, hcolumn₁⟩ := run_column hp hpre hthere hrun₁
  have hcons : Reruns.run (exec text) ([.scaleTimes t c] ++ post) f₁ = .ok g := hrest
  obtain ⟨f₂, hscale, hrun₂⟩ := Reruns.run_append_inv hcons
  obtain ⟨T, hT⟩ := Option.isSome_iff_exists.mp hthere₁
  have hcol : f.column t c = some (T.rows.map (fun r => r c)) := by
    rw [← hcolumn₁, column, hT]
    rfl
  have hexec : exec text (.scaleTimes t c) f₁ = .ok f₂ := by
    rw [Reruns.run] at hscale
    split at hscale
    · rename_i d hd
      obtain rfl := Except.ok.inj hscale
      exact hd
    · cases hscale
  rw [exec, hT] at hexec
  simp only at hexec
  split at hexec
  · cases hexec
  split at hexec
  · cases hexec
  rename_i hfits
  obtain rfl := Except.ok.inj hexec
  obtain ⟨hthere₂, hcolumn₂⟩ := run_column hp hpost (isSome_setTable hthere₁) hrun₂
  refine ⟨hthere₂, ?_, ?_⟩
  · rw [hcolumn₂, hcol, column, setTable_self, SqlTable.rescaled]
    simp
  · intro vs hvs v hv
    rw [hcol] at hvs
    obtain rfl := Option.some.inj hvs
    obtain ⟨r, hr, rfl⟩ := List.mem_map.mp hv
    by_contra hover
    exact hfits (List.any_eq_true.mpr ⟨r, hr, by simpa using hover⟩)

/-- The migration rescales each column of times in one place. -/
theorem migrateToEra2_split (hp : (t, c) ∈ TIMES) :
    ∃ pre post, migrateToEra2 = pre ++ EraStmt.scaleTimes t c :: post ∧
    (∀ s ∈ pre, s ≠ EraStmt.scaleTimes t c) ∧ ∀ s ∈ post, s ≠ EraStmt.scaleTimes t c := by
  have hmem : EraStmt.scaleTimes t c ∈ migrateToEra2 :=
    List.mem_append_left _ (List.mem_append_right _ (List.mem_map.mpr ⟨(t, c), hp, rfl⟩))
  obtain ⟨pre, post, hsplit⟩ := List.append_of_mem hmem
  have hnodup : migrateToEra2.Nodup := by decide +kernel
  rw [hsplit, List.nodup_middle, List.nodup_cons, List.mem_append, not_or] at hnodup
  refine ⟨pre, post, hsplit, ?_, ?_⟩
  · rintro s hs rfl
    exact hnodup.1.1 hs
  · rintro s hs rfl
    exact hnodup.1.2 hs

theorem exec_version {s : EraStmt} (hs : Allowed era s) (hexec : exec text s f = .ok g) :
    g.userVersion = f.userVersion := by
  cases s with
  | stamp => exact hs.elim
  | addColumn t c v =>
    rw [exec] at hexec
    split at hexec
    · obtain rfl := Except.ok.inj hexec
      rfl
    · cases hexec
  | scaleTimes t c =>
    rw [exec] at hexec
    split at hexec
    · split at hexec
      · cases hexec
      split at hexec
      · cases hexec
      obtain rfl := Except.ok.inj hexec
      rfl
    · cases hexec
  | nameEdges =>
    rw [exec] at hexec
    split at hexec
    · split at hexec
      · cases hexec
      obtain rfl := Except.ok.inj hexec
      rfl
    · cases hexec
  | createIndex n t cs =>
    rw [exec] at hexec
    split at hexec
    · obtain rfl := Except.ok.inj hexec
      rfl
    split at hexec
    · split at hexec
      · obtain rfl := Except.ok.inj hexec
        rfl
      · cases hexec
    · cases hexec
  | createTable t cs =>
    obtain rfl := Except.ok.inj hexec
    split
    · rfl
    · rfl
  | createTrigger n =>
    obtain rfl := Except.ok.inj hexec
    split
    · rfl
    · rfl
  | createView n =>
    obtain rfl := Except.ok.inj hexec
    split
    · rfl
    · rfl
  | dropIndex n =>
    obtain rfl := Except.ok.inj hexec
    rfl
  | dropTrigger n =>
    obtain rfl := Except.ok.inj hexec
    rfl
  | dropView n =>
    obtain rfl := Except.ok.inj hexec
    rfl
  | recreateView n =>
    obtain rfl := Except.ok.inj hexec
    rfl

/-- An opening of a first-era file that goes through rescales each of its times once. -/
theorem openFile_column (hp : (t, c) ∈ TIMES) (hversion : f.userVersion = 1)
    (hnode : (f.tables "node").isSome)
    (hthere : (f.tables t).isSome) (hopen : f.openFile text = .ok g) :
    g.column t c = (f.column t c).map (List.map rescale) ∧
      (∀ vs, f.column t c = some vs → ∀ v ∈ vs, overflows v = false) ∧
      ∃ d k, f.crash text k = d ∧ k < f.statements.length ∧ d.userVersion = 1 ∧
        (d.tables "node").isSome ∧ (d.tables t).isSome ∧
        d.column t c = (f.column t c).map (List.map rescale) := by
  have hnewer : ¬SCHEMA_ERA < f.userVersion := by
    rw [hversion, SCHEMA_ERA]
    omega
  obtain ⟨pre, post, hsplit, hpre, hpost⟩ := migrateToEra2_split hp
  have hstatements := statements_older hversion hnode (Or.inl rfl)
  have hrest : ∀ s ∈ migrateToEra3 ++ f.drops ++ schemaScript ++ [EraStmt.stamp],
      (Allowed 1 s ∨ s = .stamp) ∧ s ≠ .scaleTimes t c := by
    intro s hs
    rw [List.mem_append, List.mem_append, List.mem_append] at hs
    rcases hs with ((hs | hs) | hs) | hs
    · obtain rfl := List.mem_singleton.mp hs
      exact ⟨Or.inl trivial, fun h => by cases h⟩
    · rw [drops, List.mem_append] at hs
      rcases hs with hs | hs
      · obtain ⟨n, -, rfl⟩ := List.mem_map.mp hs
        exact ⟨Or.inl trivial, fun h => by cases h⟩
      · obtain ⟨n, -, rfl⟩ := List.mem_map.mp hs
        exact ⟨Or.inl trivial, fun h => by cases h⟩
    · refine ⟨Or.inl (script_allowed hs), ?_⟩
      rintro rfl
      exact script_agrees _ hs
    · obtain rfl := List.mem_singleton.mp hs
      exact ⟨Or.inr rfl, fun h => by cases h⟩
  have hown : ∀ ss : List EraStmt, (∀ s ∈ ss, s ∈ migrateToEra2) → (∀ s ∈ ss, s ≠ .scaleTimes t c) →
      ∀ s ∈ ss, (Allowed 1 s ∨ s = .stamp) ∧ s ≠ .scaleTimes t c := fun ss hmem hne s hs =>
    ⟨Or.inl (migrateToEra2_allowed (hmem s hs) (by decide)), hne s hs⟩
  have hpre' := hown pre (fun s hs => hsplit ▸ List.mem_append_left _ hs) hpre
  have hpost' := hown post
      (fun s hs => hsplit ▸ List.mem_append_right _ (List.mem_cons_of_mem _ hs)) hpost
  have hlist : f.statements =
      migrateToEra2 ++ (migrateToEra3 ++ f.drops ++ schemaScript ++ [.stamp]) := by
    rw [hstatements, show migrations 1 = migrateToEra2 ++ migrateToEra3 from rfl]
    simp only [List.append_assoc]
  rw [openFile, if_neg hnewer, hlist] at hopen
  obtain ⟨d, hmigrated, hrun⟩ := Reruns.run_append_inv hopen
  have honce := hmigrated
  rw [hsplit] at honce
  obtain ⟨hthere₁, hcolumn₁, hfits⟩ := run_column_once hp hpre' hpost' hthere honce
  obtain ⟨-, hcolumn₂⟩ := run_column hp hrest hthere₁ hrun
  refine ⟨hcolumn₂.trans hcolumn₁, hfits, d, migrateToEra2.length, ?_, ?_, ?_, ?_,
    hthere₁, hcolumn₁⟩
  · rw [crash, if_neg hnewer, hlist, List.take_left' rfl]
    exact Reruns.cut_eq_of_run hmigrated
  · rw [hlist, List.length_append, List.length_append, List.length_singleton]
    omega
  · refine Reruns.run_keeps (P := fun d => d.userVersion = 1) ?_ hversion hmigrated
    intro s hs d d' hd hexec
    exact (exec_version (migrateToEra2_allowed hs (by decide : 1 < 2)) hexec).trans hd
  · have hcreated : ("node", "created_at") ∈ TIMES := by decide
    obtain ⟨pre', post', hsplit', hpre₂, hpost₂⟩ := migrateToEra2_split hcreated
    rw [hsplit'] at hmigrated
    refine (@run_column_once text 1 f d _ _ _ _ hcreated ?_ ?_ hnode hmigrated).1
    · intro s hs
      exact ⟨Or.inl (migrateToEra2_allowed (hsplit' ▸ List.mem_append_left _ hs) (by decide)),
        hpre₂ s hs⟩
    · intro s hs
      exact ⟨Or.inl (migrateToEra2_allowed
        (hsplit' ▸ List.mem_append_right _ (List.mem_cons_of_mem _ hs)) (by decide)), hpost₂ s hs⟩

end EraFile

end Aloelite
