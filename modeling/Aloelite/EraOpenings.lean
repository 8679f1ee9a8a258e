import Aloelite.EraColumns

/-! A whole opening of an older file: after the script everything is made, and the file is
settled. -/
namespace Aloelite

namespace EraFile

variable {text : String → String} {era : ℕ} {f g : EraFile} {t c : String} {T : SqlTable}
  {cs : Finset String} {r : SqlRow}

/-- The derived objects are the schema's, as far as they are there. -/
structure Derived (text : String → String) (f : EraFile) : Prop where
  triggers : ∀ n, f.triggers n = none ∨ schemaTrigger n ∧ f.triggers n = some (text n)
  views : ∀ n, f.views n = none ∨ schemaView n ∧ f.views n = some (text n)

/-- What a statement of the script makes is there. -/
def Made (text : String → String) : EraStmt → EraFile → Prop
  | .createTable t _, f => (f.tables t).isSome
  | .createIndex n _ _, f => (f.indexes n).isSome
  | .createTrigger n, f => f.triggers n = some (text n)
  | .createView n, f | .recreateView n, f => f.views n = some (text n)
  | _, _ => True

theorem derived_created {o : String → Option String} {schema : String → Bool} {n : String}
    (hn : schema n) (h : ∀ n, o n = none ∨ schema n ∧ o n = some (text n)) (m : String) :
    (Function.update o n (some (text n))) m = none ∨ schema m ∧
      (Function.update o n (some (text n))) m = some (text m) := by
  by_cases hm : m = n
  · subst hm
    exact Or.inr ⟨hn, Function.update_self ..⟩
  · rw [Function.update_of_ne hm]
    exact h m

theorem made_stays {o : String → Option String} {n m : String} (h : o m = some (text m)) :
    (Function.update o n (some (text n))) m = some (text m) := by
  by_cases hm : m = n
  · subst hm
    exact Function.update_self ..
  · rw [Function.update_of_ne hm]
    exact h

/-- A statement of the script on a migrated file: it goes through, and keeps all. -/
theorem exec_script {s : EraStmt} (hs : s ∈ schemaScript) (h : Fine era f) (hready : Ready era f)
    (hderived : Derived text f) :
    ∃ g, exec text s f = .ok g ∧ Fine era g ∧ Ready era g ∧ Derived text g ∧ Made text s g ∧
      ∀ s' ∈ schemaScript, Made text s' f → Made text s' g := by
  have hagrees := script_agrees s hs
  have hkeeps : ∀ g, exec text s f = .ok g → Fine era g :=
    fun g hg => (exec_allowed h (script_allowed hs) hg).1
  -- the first seven are statements of the migrations, which the script does not hold
  cases s with
  | addColumn t c v => exact hagrees.elim
  | scaleTimes t c => exact hagrees.elim
  | dropIndex n => exact hagrees.elim
  | stamp => exact hagrees.elim
  | nameEdges => exact hagrees.elim
  | dropTrigger n => exact hagrees.elim
  | dropView n => exact hagrees.elim
  | createTable t cs =>
    obtain ⟨hschema, hadded, -⟩ := hagrees
    by_cases hthere : (f.tables t).isSome
    · have hexec : exec text (.createTable t cs) f = .ok f := by
        rw [exec, if_pos hthere]
      exact ⟨f, hexec, h, hready, hderived, hthere, fun _ _ hmade => hmade⟩
    · have hexec : exec text (.createTable t cs) f = .ok (f.setTable t ⟨cs, []⟩) := by
        rw [exec, if_neg hthere]
      have hown : ∀ U, (f.setTable t ⟨cs, []⟩).tables t = some U → (⟨cs, []⟩ : SqlTable) = U := by
        intro U hU
        rw [setTable_self] at hU
        exact Option.some.inj hU
      refine ⟨_, hexec, hkeeps _ hexec, ⟨?_, ?_, ?_, hready.unindexed⟩,
        ⟨hderived.triggers, hderived.views⟩, by simp [Made], ?_⟩
      · intro u U hU
        by_cases hut : u = t
        · subst hut
          obtain rfl := hown U hU
          exact hadded
        · rw [setTable_ne _ _ hut] at hU
          exact hready.columns u U hU
      · intro hera p hp U hU r hr
        by_cases hut : p.1 = t
        · subst hut
          obtain rfl := hown U hU
          cases hr
        · rw [setTable_ne _ _ hut] at hU
          exact hready.times hera p hp U hU r hr
      · intro U hU r hr
        by_cases hut : "edge" = t
        · subst hut
          obtain rfl := hown U hU
          cases hr
        · rw [setTable_ne _ _ hut] at hU
          exact hready.named U hU r hr
      · intro s' hs' hmade
        cases s' with
        | createTable u ds =>
          by_cases hut : u = t
          · subst hut
            simp [Made]
          · simpa [Made, setTable_ne _ _ hut] using hmade
        | _ => exact hmade
  -- an index needs its columns, and the migrated file has them
  | createIndex n t cs =>
    obtain ⟨hindex, hdropped, hbase, ds, hds, hsub⟩ := hagrees
    by_cases hthere : (f.indexes n).isSome
    · have hexec : exec text (.createIndex n t cs) f = .ok f := by
        rw [exec, if_pos hthere]
      exact ⟨f, hexec, h, hready, hderived, hthere, fun _ _ hmade => hmade⟩
    · obtain ⟨T, hT⟩ := Option.isSome_iff_exists.mp (h.there t hbase)
      have hcolumns : cs ⊆ T.columns := by
        intro c hc
        rcases h.columns t T hT ds hds c (hsub hc) with hmem | ⟨-, hadded⟩
        · exact hmem
        · exact hready.columns t T hT hadded
      have hexec : exec text (.createIndex n t cs) f =
          .ok { f with indexes := Function.update f.indexes n (some (text n)) } := by
        rw [exec, if_neg hthere, hT]
        simp only [if_pos hcolumns]
      refine ⟨_, hexec, hkeeps _ hexec, ⟨hready.columns, hready.times, hready.named, ?_⟩,
        ⟨hderived.triggers, hderived.views⟩,
        by simp [Made], ?_⟩
      · intro hera
        simpa [Ne.symm hdropped] using hready.unindexed hera
      · intro s' hs' hmade
        cases s' with
        | createIndex m u es =>
          by_cases hm : m = n
          · simp [Made, hm]
          · simpa [Made, hm] using hmade
        | _ => exact hmade
  -- a trigger or view that is there already is the script's own, by `Derived`
  | createTrigger n =>
    rcases hderived.triggers n with hnone | ⟨-, hsome⟩
    · have hexec : exec text (.createTrigger n) f =
          .ok { f with triggers := Function.update f.triggers n (some (text n)) } := by
        rw [exec, if_neg (by simp [hnone])]
      refine ⟨_, hexec, hkeeps _ hexec,
        ⟨hready.columns, hready.times, hready.named, hready.unindexed⟩,
        ⟨derived_created hagrees.1 hderived.triggers, hderived.views⟩, by simp [Made], ?_⟩
      intro s' hs' hmade
      cases s' with
      | createTrigger m => exact made_stays hmade
      | _ => exact hmade
    · have hexec : exec text (.createTrigger n) f = .ok f := by
        rw [exec, if_pos (by simp [hsome])]
      exact ⟨f, hexec, h, hready, hderived, hsome, fun _ _ hmade => hmade⟩
  | createView n =>
    rcases hderived.views n with hnone | ⟨-, hsome⟩
    · have hexec : exec text (.createView n) f =
          .ok { f with views := Function.update f.views n (some (text n)) } := by
        rw [exec, if_neg (by simp [hnone])]
      refine ⟨_, hexec, hkeeps _ hexec,
        ⟨hready.columns, hready.times, hready.named, hready.unindexed⟩,
        ⟨hderived.triggers, derived_created hagrees.1 hderived.views⟩, by simp [Made], ?_⟩
      intro s' hs' hmade
      cases s' with
      | createView m => exact made_stays hmade
      | recreateView m => exact made_stays hmade
      | _ => exact hmade
    · have hexec : exec text (.createView n) f = .ok f := by
        rw [exec, if_pos (by simp [hsome])]
      exact ⟨f, hexec, h, hready, hderived, hsome, fun _ _ hmade => hmade⟩
  | recreateView n =>
    have hexec : exec text (.recreateView n) f =
        .ok { f with views := Function.update f.views n (some (text n)) } := rfl
    refine ⟨_, hexec, hkeeps _ hexec,
      ⟨hready.columns, hready.times, hready.named, hready.unindexed⟩,
      ⟨hderived.triggers, derived_created hagrees.1 hderived.views⟩, by simp [Made], ?_⟩
    intro s' hs' hmade
    cases s' with
    | createView m => exact made_stays hmade
    | recreateView m => exact made_stays hmade
    | _ => exact hmade

theorem schemaTable_mem (h : schemaTable t = some cs) : .createTable t cs ∈ schemaScript := by
  obtain ⟨s, hs, hsome⟩ := List.exists_of_findSome?_eq_some h
  cases s with
  | createTable u ds =>
    simp only at hsome
    split at hsome
    · rename_i hu
      obtain rfl := Option.some.inj hsome
      exact hu ▸ hs
    · cases hsome
  | _ => cases hsome

theorem schemaIndex_mem {n : String} (h : schemaIndex n = true) :
    ∃ t cs, .createIndex n t cs ∈ schemaScript := by
  obtain ⟨s, hs, htrue⟩ := List.any_eq_true.mp h
  cases s with
  | createIndex m t cs =>
    obtain rfl : m = n := by simpa using htrue
    exact ⟨t, cs, hs⟩
  | _ => cases htrue

theorem schemaTrigger_mem {n : String} (h : schemaTrigger n = true) :
    .createTrigger n ∈ schemaScript := by
  obtain ⟨s, hs, htrue⟩ := List.any_eq_true.mp h
  cases s with
  | createTrigger m =>
    obtain rfl : m = n := by simpa using htrue
    exact hs
  | _ => cases htrue

theorem schemaView_mem {n : String} (h : schemaView n = true) :
    .createView n ∈ schemaScript ∨ .recreateView n ∈ schemaScript := by
  obtain ⟨s, hs, htrue⟩ := List.any_eq_true.mp h
  cases s with
  | createView m =>
    obtain rfl : m = n := by simpa using htrue
    exact Or.inl hs
  | recreateView m =>
    obtain rfl : m = n := by simpa using htrue
    exact Or.inr hs
  | _ => cases htrue

/-- A row that has nothing left to be done. -/
theorem Ready.settledRow (hready : Ready era f) (hT : f.tables t = some T) (hr : r ∈ T.rows) :
    f.settledRow rescale era t T.columns r = r := by
  funext c
  rw [EraFile.settledRow]
  split
  · rename_i htimes
    exact hready.times htimes.1 (t, c) htimes.2 T hT r hr
  split
  · rename_i hedge
    obtain ⟨rfl, rfl⟩ := hedge
    have hname : "name" ∈ T.columns := hready.columns "edge" T hT (by decide)
    rw [if_pos ⟨hname, hready.named T hT r hr⟩]
  split
  · rename_i v hv
    rw [if_pos (hready.columns t T hT (addedValue_spec hv))]
  · rfl

/-- A file that has everything done is settled but for the stamp. -/
theorem Ready.settled (hready : Ready era f) (hderived : Derived text f)
    (hmade : ∀ s ∈ schemaScript, Made text s f) :
    f.settled text rescale era = { f with userVersion := SCHEMA_ERA } := by
  apply EraFile.ext
  · funext t
    rw [EraFile.settled]
    cases hT : f.tables t with
    | none =>
      cases hschema : schemaTable t with
      | none => simp [hT, hschema]
      | some cs =>
        have hsome : (f.tables t).isSome := hmade _ (schemaTable_mem hschema)
        rw [hT] at hsome
        cases hsome
    | some T =>
      have hrows : T.rows.map (f.settledRow rescale era t T.columns) = T.rows :=
        (List.map_congr_left fun r hr => hready.settledRow hT hr).trans (List.map_id _)
      simp only [hT, settledTable, hrows, Finset.union_eq_left.mpr (hready.columns t T hT)]
  · funext n
    rw [EraFile.settled]
    simp only
    split
    · rename_i hdropped
      rw [hdropped.2]
      exact (hready.unindexed hdropped.1).symm
    · cases hn : f.indexes n with
      | some x => rfl
      | none =>
        split
        · rename_i hschema
          obtain ⟨t, cs, hmem⟩ := schemaIndex_mem hschema
          have hsome : (f.indexes n).isSome := hmade _ hmem
          rw [hn] at hsome
          cases hsome
        · rfl
  · funext n
    rw [EraFile.settled]
    simp only
    split
    · rename_i hschema
      exact (hmade _ (schemaTrigger_mem hschema)).symm
    · rename_i hschema
      exact ((hderived.triggers n).resolve_right fun h => hschema h.1).symm
  · funext n
    rw [EraFile.settled]
    simp only
    split
    · rename_i hschema
      rcases schemaView_mem hschema with hmem | hmem
      · exact (hmade _ hmem).symm
      · exact (hmade _ hmem).symm
    · rename_i hschema
      exact ((hderived.views n).resolve_right fun h => hschema h.1).symm
  · rfl
  · rfl

/-- An older file is not fresh, and every step is carried out. -/
theorem statements_older (hversion : f.userVersion = era) (hnode : (f.tables "node").isSome)
    (hera : era = 1 ∨ era = 2) :
    f.statements = migrations era ++ f.drops ++ schemaScript ++ [.stamp] := by
  have hlt : f.userVersion < SCHEMA_ERA := by
    rw [hversion, SCHEMA_ERA]
    omega
  have hfresh : f.fresh = false := by
    obtain ⟨T, hT⟩ := Option.isSome_iff_exists.mp hnode
    rw [fresh, List.all_eq_false]
    refine ⟨"node", List.mem_append_right _ (by decide +kernel), ?_⟩
    simp [hT]
  rw [EraFile.statements, if_pos hlt, hfresh, hversion]
  simp

theorem Shaped.statements (h : Shaped era f) (hera : era = 1 ∨ era = 2) :
    f.statements = migrations era ++ f.drops ++ schemaScript ++ [.stamp] :=
  statements_older h.version (h.there "node" (by decide)) hera

/-- A whole opening settles a file whose times are fine. -/
theorem openFile_fine (h : Fine era f) (hera : era = 1 ∨ era = 2) :
    f.openFile text = .ok (f.settled text rescale era) := by
  have hnewer : ¬SCHEMA_ERA < f.userVersion := by
    rw [h.version, SCHEMA_ERA]
    omega
  obtain ⟨f₁, hmigrate, hfine₁, hready₁, htriggers, hviews⟩ := run_migrations text h hera
  have hallowed₁ : f₁.settled text rescale era = f.settled text rescale era :=
    (Reruns.run_keeps (P := fun d => Fine era d ∧ d.settled text rescale era =
      f.settled text rescale era)
      (fun s hs d g hd hexec => by
        obtain ⟨hg, hsame⟩ := exec_allowed hd.1 (migrations_allowed hs) hexec
        exact ⟨hg, hsame.trans hd.2⟩) ⟨h, rfl⟩ hmigrate).2
  -- the derived objects are dropped, and then the script makes what is missing
  have hdrop := run_drops text h.toShaped htriggers hviews
  let f₂ : EraFile := { f₁ with triggers := fun _ => none, views := fun _ => none }
  have hfine₂ : Fine era f₂ :=
    ⟨⟨hfine₁.version, hfine₁.there, hfine₁.columns, fun _ hn => Bool.noConfusion hn, fun _ hn =>
      Bool.noConfusion hn, hfine₁.placed⟩,
      hfine₁.times⟩
  have hready₂ : Ready era f₂ := ⟨hready₁.columns, hready₁.times, hready₁.named, hready₁.unindexed⟩
  have hderived₂ : Derived text f₂ := ⟨fun _ => Or.inl rfl, fun _ => Or.inl rfl⟩
  have hstep : ∀ s ∈ schemaScript, ∀ d, Fine era d ∧ Ready era d ∧ Derived text d ∧
      d.settled text rescale era = f.settled text rescale era → ∃ g, exec text s d = .ok g ∧
      Fine era g ∧ Ready era g ∧ Derived text g ∧ g.settled text rescale era =
      f.settled text rescale era := by
    rintro s hs d ⟨hd, hready, hderived, hsame⟩
    obtain ⟨g, hexec, hg, hgready, hgderived, -, -⟩ := exec_script hs hd hready hderived
    exact ⟨g, hexec, hg, hgready, hgderived,
      (exec_allowed hd (script_allowed hs) hexec).2.trans hsame⟩
  obtain ⟨f₃, hscript, hfine₃, hready₃, hderived₃, hsame₃⟩ :=
    Reruns.run_total hstep ⟨hfine₂, hready₂, hderived₂, hallowed₁⟩
  have hmade₃ : ∀ s ∈ schemaScript, Made text s f₃ := by
    refine Reruns.run_done (P := fun d => Fine era d ∧ Ready era d ∧ Derived text d) ?_ ?_ ?_
      ⟨hfine₂, hready₂, hderived₂⟩ hscript
    · rintro s hs d g ⟨hd, hready, hderived⟩ hexec
      obtain ⟨g', hexec', -, -, -, hmade, -⟩ := exec_script hs hd hready hderived
      obtain rfl := Except.ok.inj (hexec.symm.trans hexec')
      exact hmade
    · rintro s hs s' hs' d g ⟨hd, hready, hderived⟩ hmade hexec
      obtain ⟨g', hexec', -, -, -, -, hstays⟩ := exec_script hs' hd hready hderived
      obtain rfl := Except.ok.inj (hexec.symm.trans hexec')
      exact hstays s hs hmade
    · rintro s hs d g ⟨hd, hready, hderived⟩ hexec
      obtain ⟨g', hexec', hg, hgready, hgderived, -, -⟩ := exec_script hs hd hready hderived
      obtain rfl := Except.ok.inj (hexec.symm.trans hexec')
      exact ⟨hg, hgready, hgderived⟩
  rw [openFile, if_neg hnewer, h.toShaped.statements hera, List.append_assoc, List.append_assoc,
    Reruns.run_append hmigrate,
    Reruns.run_append hdrop, Reruns.run_append hscript]
  rw [Reruns.run_cons (rfl : exec text .stamp f₃ =
    .ok { f₃ with userVersion := SCHEMA_ERA }), ← hready₃.settled hderived₃ hmade₃, hsame₃]
  rfl

end EraFile

end Aloelite
