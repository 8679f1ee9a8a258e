import Aloelite.EraStatements

/-! The migrations of an opening, statement after statement: which columns, tables and views are
there once they are through. -/
namespace Aloelite

namespace EraFile

variable {text : String → String} {era : ℕ} {f g : EraFile} {t c : String} {T : SqlTable}
  {cs : Finset String} {r : SqlRow} {φ : SqlRow → SqlRow}

/-- The migrations are done. -/
structure Ready (era : ℕ) (f : EraFile) : Prop where
  columns : ∀ t T, f.tables t = some T → addedColumns t ⊆ T.columns
  times : era < 2 → ∀ p ∈ TIMES, ∀ T, f.tables p.1 = some T → ∀ r ∈ T.rows, rescale (r p.2) = r p.2
  named : ∀ T, f.tables "edge" = some T → ∀ r ∈ T.rows, r "name" ≠ .null
  unindexed : era < 2 → f.indexes "edge_active_placement" = none

/-- What a statement of the first migration is for. -/
def Done : EraStmt → EraFile → Prop
  | .addColumn t c _, f => ∀ T, f.tables t = some T → c ∈ T.columns
  | .scaleTimes t c, f => ∀ T, f.tables t = some T → ∀ r ∈ T.rows, rescale (r c) = r c
  | .dropIndex n, f => f.indexes n = none
  | _, _ => True

/-- What a migration does to the rest of the file: the tables stay or one is rewritten. -/
structure Migrates (era : ℕ) (f g : EraFile) : Prop where
  tables : g.tables = f.tables ∨ ∃ t T cs φ, f.tables t = some T ∧
    g.tables = (f.setTable t ⟨cs, T.rows.map φ⟩).tables ∧ Unseen era f t T cs φ
  indexes : ∀ n, f.indexes n = none → g.indexes n = none
  triggers : g.triggers = f.triggers
  views : g.views = f.views

theorem mem_migrateToEra2 {s : EraStmt} (h : s ∈ migrateToEra2) :
    (∃ p ∈ ADDED, s = .addColumn p.1 p.2.1 p.2.2) ∨ (∃ p ∈ TIMES, s = .scaleTimes p.1 p.2) ∨
      s = .dropIndex "edge_active_placement" := by
  rw [migrateToEra2, List.mem_append, List.mem_append, List.mem_singleton] at h
  rcases h with (h | h) | h
  · obtain ⟨p, hp, rfl⟩ := List.mem_map.mp h
    exact Or.inl ⟨p, hp, rfl⟩
  · obtain ⟨p, hp, rfl⟩ := List.mem_map.mp h
    exact Or.inr (Or.inl ⟨p, hp, rfl⟩)
  · exact Or.inr (Or.inr h)

theorem migrateToEra2_allowed {s : EraStmt} (hs : s ∈ migrateToEra2) (hera : era < 2) :
    Allowed era s := by
  rcases mem_migrateToEra2 hs with ⟨p, hp, rfl⟩ | ⟨p, hp, rfl⟩ | rfl
  · exact ⟨hera, hp⟩
  · exact ⟨hera, hp⟩
  · exact ⟨hera, rfl⟩

theorem Fine.column (h : Fine era f) {p : String × String} (hp : p ∈ TIMES)
    (hT : f.tables p.1 = some T) : p.2 ∈ T.columns := by
  obtain ⟨-, -, -, -, -, -, ds, hds, hmem, hadded⟩ := times_spec p hp
  exact (h.columns p.1 T hT ds hds p.2 hmem).resolve_right (fun h' => hadded h'.2)

/-- A statement of the first migration goes through, does its part and migrates. -/
theorem exec_migrateToEra2 (text : String → String) {s : EraStmt} (h : Fine era f)
    (hs : s ∈ migrateToEra2) (hera : era < 2) :
    ∃ g, exec text s f = .ok g ∧ Fine era g ∧ Done s g ∧ Migrates era f g := by
  have hkeeps : ∀ g, exec text s f = .ok g → Fine era g :=
    fun g hg => (exec_allowed h (migrateToEra2_allowed hs hera) hg).1
  rcases mem_migrateToEra2 hs with ⟨⟨t, c, v⟩, hp, rfl⟩ | ⟨⟨t, c⟩, hp, rfl⟩ | rfl
  · obtain ⟨T, hT⟩ := Option.isSome_iff_exists.mp (h.there t (added_spec _ hp).2.2.2.2.2.2.2)
    have hexec : exec text (.addColumn t c v) f = .ok (f.setTable t (T.addColumn c v)) := by
      rw [exec, hT]
    refine ⟨_, hexec, hkeeps _ hexec, ?_, ?_⟩
    · intro U hU
      rw [setTable_self] at hU
      obtain rfl := Option.some.inj hU
      rw [SqlTable.addColumn]
      split
      · assumption
      · exact Finset.mem_insert_self ..
    · refine ⟨?_, fun _ hn => hn, rfl, rfl⟩
      by_cases hc : c ∈ T.columns
      · left
        rw [SqlTable.addColumn, if_pos hc, setTable, ← hT, Function.update_eq_self]
      · right
        refine ⟨t, T, insert c T.columns, fun r => Function.update r c v, hT, ?_,
          addColumn_unseen hp hc⟩
        rw [SqlTable.addColumn, if_neg hc]
  · obtain ⟨T, hT⟩ := Option.isSome_iff_exists.mp (h.there t (times_spec _ hp).2.2.2.2.2.1)
    have hfine := h.times hera _ hp T hT
    have hfits : ¬(T.rows.any (fun r => overflows (r c)) = true) := by
      rw [List.any_eq_true]
      rintro ⟨r, hr, hover⟩
      rw [(hfine r hr).fits] at hover
      exact Bool.false_ne_true hover
    have hexec : exec text (.scaleTimes t c) f = .ok (f.setTable t (T.rescaled c)) := by
      have hcolumn : ¬c ∉ T.columns := not_not.mpr (h.column hp hT)
      rw [exec, hT]
      simp only [if_neg hcolumn, if_neg hfits]
    refine ⟨_, hexec, hkeeps _ hexec, ?_,
      ⟨Or.inr ⟨t, T, _, _, hT, rfl, scaleTimes_unseen hp hera hfine⟩, fun _ hn => hn, rfl, rfl⟩⟩
    intro U hU r hr
    rw [setTable_self] at hU
    obtain rfl := Option.some.inj hU
    obtain ⟨r₀, hr₀, rfl⟩ := List.mem_map.mp hr
    rw [Function.update_self]
    exact (hfine r₀ hr₀).rescale.2
  · refine ⟨_, rfl, hkeeps _ rfl, by simp [Done], ⟨Or.inl rfl, ?_, rfl, rfl⟩⟩
    intro n hn
    by_cases hname : n = "edge_active_placement"
    · simp [hname]
    · simpa [hname] using hn

/-- What is done stays done through a migration. -/
theorem Migrates.done (hm : Migrates era f g) {s : EraStmt} (hs : s ∈ migrateToEra2)
    (hdone : Done s f) : Done s g := by
  rcases mem_migrateToEra2 hs with ⟨⟨t, c, v⟩, hp, rfl⟩ | ⟨⟨t, c⟩, hp, rfl⟩ | rfl
  · intro U hU
    rcases hm.tables with hsame | ⟨u, T, cs, φ, hT, hnew, hunseen⟩
    · exact hdone U (hsame ▸ hU)
    · rw [hnew] at hU
      by_cases htu : t = u
      · subst htu
        rw [setTable_self] at hU
        obtain rfl := Option.some.inj hU
        exact hunseen.grows (hdone T hT)
      · rw [setTable_ne _ _ htu] at hU
        exact hdone U hU
  · intro U hU r hr
    rcases hm.tables with hsame | ⟨u, T, cs, φ, hT, hnew, hunseen⟩
    · exact hdone U (hsame ▸ hU) r hr
    · rw [hnew] at hU
      by_cases htu : t = u
      · subst htu
        rw [setTable_self] at hU
        obtain rfl := Option.some.inj hU
        obtain ⟨r₀, hr₀, rfl⟩ := List.mem_map.mp hr
        have hold := hdone T hT r₀ hr₀
        rcases hunseen.times c hp r₀ hr₀ with hkept | ⟨-, hscaled⟩
        · rw [hkept]
          exact hold
        · rw [hscaled, hold]
          exact hold
      · rw [setTable_ne _ _ htu] at hU
        exact hdone U hU r hr
  · exact hm.indexes _ hdone

theorem migrations_allowed {s : EraStmt} (hs : s ∈ migrations era) : Allowed era s := by
  rw [migrations, List.mem_append] at hs
  rcases hs with hs | hs
  · split at hs
    · exact migrateToEra2_allowed hs ‹_›
    · cases hs
  · split at hs
    · obtain rfl := List.mem_singleton.mp hs
      trivial
    · cases hs

theorem script_allowed {s : EraStmt} (hs : s ∈ schemaScript) : Allowed era s := by
  have hagrees := script_agrees s hs
  cases s with
  | addColumn t c v => exact hagrees.elim
  | scaleTimes t c => exact hagrees.elim
  | dropIndex n => exact hagrees.elim
  | stamp => exact hagrees.elim
  | nameEdges => trivial
  | dropTrigger n => trivial
  | dropView n => trivial
  | _ => exact hs

theorem addedValue_spec {v : SqlValue} (h : addedValue t c = some v) : c ∈ addedColumns t := by
  obtain ⟨p, hp, -⟩ := Option.map_eq_some_iff.mp h
  have hmem := List.mem_of_find?_eq_some hp
  have hname := List.find?_some hp
  simp only [decide_eq_true_eq] at hname
  rw [addedColumns, List.mem_toFinset, List.mem_map]
  exact ⟨p, List.mem_filter.mpr ⟨hmem, by simpa using hname.1⟩, hname.2⟩

theorem mem_addedColumns (h : c ∈ addedColumns t) : ∃ v, (t, c, v) ∈ ADDED := by
  rw [addedColumns, List.mem_toFinset] at h
  obtain ⟨⟨u, d, v⟩, hp, rfl⟩ := List.mem_map.mp h
  obtain ⟨hmem, hu⟩ := List.mem_filter.mp hp
  obtain rfl : u = t := by simpa using hu
  exact ⟨v, hmem⟩

/-- The last migration goes through when the column is there, and names every placement. -/
theorem exec_nameEdges (text : String → String) (h : Fine era f)
    (hname : ∀ T, f.tables "edge" = some T → "name" ∈ T.columns) :
    ∃ g, exec text .nameEdges f = .ok g ∧ Fine era g ∧ Migrates era f g ∧
      ∀ T, g.tables "edge" = some T → ∀ r ∈ T.rows, r "name" ≠ .null := by
  obtain ⟨T, hT⟩ := Option.isSome_iff_exists.mp (h.there "edge" (by decide))
  obtain ⟨N, hN⟩ := Option.isSome_iff_exists.mp (h.there "node" (by decide))
  have hcolumn : ¬"name" ∉ T.columns := not_not.mpr (hname T hT)
  have hexec : exec text .nameEdges f =
      .ok (f.setTable "edge" { T with rows := T.rows.map f.nameEdge }) := by
    rw [exec, hT, hN]
    simp only [if_neg hcolumn]
  have hunseen : Unseen era f "edge" T T.columns f.nameEdge := nameEdges_unseen (hname T hT)
  refine ⟨_, hexec, (exec_allowed (s := .nameEdges) h trivial hexec).1,
    ⟨Or.inr ⟨_, T, _, _, hT, rfl, hunseen⟩, fun _ hn => hn, rfl, rfl⟩, ?_⟩
  intro U hU r hr
  rw [setTable_self] at hU
  obtain rfl := Option.some.inj hU
  obtain ⟨r₀, hr₀, rfl⟩ := List.mem_map.mp hr
  rw [nameEdge]
  split
  · -- neither a node's name nor the placement's target is null
    rw [Function.update_self, inherited]
    have hto := h.placed T hT r₀ hr₀
    split
    · split
      · exact hto
      · assumption
    · exact hto
  · assumption

/-- The migrations of an era go through. -/
theorem run_migrations (text : String → String) (h : Fine era f) (hera : era = 1 ∨ era = 2) :
    ∃ g, Reruns.run (exec text) (migrations era) f = .ok g ∧ Fine era g ∧ Ready era g ∧
      g.triggers = f.triggers ∧
      g.views = f.views := by
  rcases hera with rfl | rfl
  · -- first the columns and the times, which later statements leave as they are
    have hstep : ∀ s ∈ migrateToEra2, ∀ d, Fine 1 d ∧ d.triggers = f.triggers ∧ d.views = f.views →
        ∃ g, exec text s d = .ok g ∧ Fine 1 g ∧ g.triggers = f.triggers ∧ g.views = f.views := by
      rintro s hs d ⟨hd, htriggers, hviews⟩
      obtain ⟨g, hexec, hg, -, hm⟩ := exec_migrateToEra2 text hd hs (by decide)
      exact ⟨g, hexec, hg, hm.triggers.trans htriggers, hm.views.trans hviews⟩
    obtain ⟨f₁, hrun, hfine, htriggers, hviews⟩ := Reruns.run_total hstep ⟨h, rfl, rfl⟩
    have hmigrates : ∀ s ∈ migrateToEra2, ∀ d g, Fine 1 d → exec text s d = .ok g → Fine 1 g ∧
        Done s g ∧ Migrates 1 d g := by
      intro s hs d g hd hexec
      obtain ⟨g', hexec', hg⟩ := exec_migrateToEra2 text hd hs (by decide)
      obtain rfl := Except.ok.inj (hexec.symm.trans hexec')
      exact hg
    have hdone : ∀ s ∈ migrateToEra2, Done s f₁ := by
      refine Reruns.run_done (P := Fine 1) (fun s hs d g hd hexec =>
        (hmigrates s hs d g hd hexec).2.1)
        (fun s hs s' hs' d g hd hdone hexec => ?_) (fun s hs d g hd hexec =>
          (hmigrates s hs d g hd hexec).1) h hrun
      exact (hmigrates s' hs' d g hd hexec).2.2.done hs hdone
    have hadd : ∀ t c v, (t, c, v) ∈ ADDED → .addColumn t c v ∈ migrateToEra2 := fun t c v hp =>
      List.mem_append_left _ (List.mem_append_left _ (List.mem_map.mpr ⟨_, hp, rfl⟩))
    have hscale : ∀ p ∈ TIMES, .scaleTimes p.1 p.2 ∈ migrateToEra2 := fun p hp =>
      List.mem_append_left _ (List.mem_append_right _ (List.mem_map.mpr ⟨p, hp, rfl⟩))
    -- then the names
    obtain ⟨f₂, hexec, hfine₂, hm, hnamed⟩ := exec_nameEdges text hfine
      (hdone _ (hadd "edge" "name" .null (by decide)))
    have hdone₂ : ∀ s ∈ migrateToEra2, Done s f₂ := fun s hs => hm.done hs (hdone s hs)
    refine ⟨f₂, ?_, hfine₂,
      ⟨?_, ?_, hnamed, fun _ => hdone₂ _ (List.mem_append_right _ (List.mem_singleton.mpr rfl))⟩,
      hm.triggers.trans htriggers, hm.views.trans hviews⟩
    · rw [show migrations 1 = migrateToEra2 ++ [.nameEdges] from rfl, Reruns.run_append hrun,
        Reruns.run_cons hexec]
      rfl
    · intro t T hT c hc
      obtain ⟨v, hv⟩ := mem_addedColumns hc
      exact hdone₂ _ (hadd t c v hv) T hT
    · intro _ p hp T hT r hr
      exact hdone₂ _ (hscale p hp) T hT r hr
  · have hcolumns : ∀ f : EraFile, Fine 2 f → ∀ t T, f.tables t = some T →
        addedColumns t ⊆ T.columns := by
      intro d hd t T hT c hc
      obtain ⟨v, hv⟩ := mem_addedColumns hc
      obtain ⟨ds, hds, hmem⟩ := added_schema _ hv
      exact (hd.columns t T hT ds hds c hmem).resolve_right (fun h' => absurd h'.1 (by decide))
    obtain ⟨g, hexec, hfine, hm, hnamed⟩ := exec_nameEdges text h
      (fun T hT => hcolumns f h "edge" T hT (by decide))
    refine ⟨g, ?_, hfine,
      ⟨hcolumns g hfine, fun h' => absurd h' (by decide), hnamed, fun h' => absurd h' (by decide)⟩,
      hm.triggers, hm.views⟩
    rw [show migrations 2 = [.nameEdges] from rfl, Reruns.run_cons hexec]
    rfl

theorem run_dropTriggers (names : List String) (f : EraFile) :
    Reruns.run (exec text) (names.map .dropTrigger) f =
    .ok { f with triggers := fun n => if n ∈ names then none else f.triggers n } := by
  induction names generalizing f with
  | nil => simp [Reruns.run]
  | cons n names ih =>
    rw [List.map_cons, Reruns.run_cons (rfl : exec text (.dropTrigger n) f = .ok _), ih]
    congr 2
    funext m
    by_cases hm : m = n
    · simp [hm]
    · simp [hm]

theorem run_dropViews (names : List String) (f : EraFile) :
    Reruns.run (exec text) (names.map .dropView) f =
    .ok { f with views := fun n => if n ∈ names then none else f.views n } := by
  induction names generalizing f with
  | nil => simp [Reruns.run]
  | cons n names ih =>
    rw [List.map_cons, Reruns.run_cons (rfl : exec text (.dropView n) f = .ok _), ih]
    congr 2
    funext m
    by_cases hm : m = n
    · simp [hm]
    · simp [hm]

/-- The drops leave no derived object. -/
theorem run_drops (text : String → String) (h : Shaped era f)
    (htriggers : g.triggers = f.triggers) (hviews : g.views = f.views) :
    Reruns.run (exec text) f.drops g =
      .ok { g with triggers := fun _ => none, views := fun _ => none } := by
  have hnone : ∀ (objects : String → Option String), (∀ n, (objects n).isSome → n ∈ f.known) →
      (fun n => if n ∈ f.known.filter (fun n => (objects n).isSome) then none else objects n) =
      fun _ => none := by
    intro objects hknown
    funext n
    rw [ite_eq_left_iff]
    intro hn
    by_contra hsome
    have his := Option.isSome_iff_ne_none.mpr hsome
    exact hn (List.mem_filter.mpr ⟨hknown n his, his⟩)
  rw [drops, Reruns.run_append (run_dropTriggers _ g), run_dropViews]
  simp only [htriggers, hviews]
  rw [hnone _ h.triggers, hnone _ h.views]

end EraFile

end Aloelite
