import Aloelite.Eras

/-! What one statement of an opening leaves to be done: it may be made again after a crash, and
it leaves the same file to be settled. -/
namespace Aloelite

namespace EraFile

/-! ### Times -/

theorem rescale_of_lt {z : ℤ} (h : 0 < z ∧ z < NS_BOUND) :
    rescale (.integer z) = .integer (z * 1000000) := by
  rw [rescale, if_pos h]

theorem rescale_of_not {z : ℤ} (h : ¬(0 < z ∧ z < NS_BOUND)) :
    rescale (.integer z) = .integer z := by
  rw [rescale, if_neg h]

theorem FineTime.rescale {v : SqlValue} (h : FineTime v) :
    FineTime (rescale v) ∧ Aloelite.rescale (Aloelite.rescale v) = Aloelite.rescale v := by
  cases v with
  | integer z =>
    have hz := h z rfl
    by_cases hlt : 0 < z ∧ z < NS_BOUND
    · -- milliseconds: the product is past the bound
      have hpast : NS_BOUND ≤ z * 1000000 := by
        simp only [NS_BOUND] at hz hlt ⊢
        omega
      rw [rescale_of_lt hlt]
      refine ⟨?_, rescale_of_not fun h' => absurd h'.2 (not_lt.mpr hpast)⟩
      rintro w hw
      obtain rfl := SqlValue.integer.inj hw
      exact Or.inr (Or.inr hpast)
    · rw [rescale_of_not hlt]
      exact ⟨h, rescale_of_not hlt⟩
  | null => exact ⟨h, rfl⟩
  | text s => exact ⟨h, rfl⟩
  | blob b => exact ⟨h, rfl⟩

theorem FineTime.fits {v : SqlValue} (h : FineTime v) : overflows v = false := by
  cases v with
  | integer z =>
    have hz := h z rfl
    apply decide_eq_false
    simp only [NS_BOUND, MAX_INTEGER] at hz ⊢
    omega
  | null => rfl
  | text s => rfl
  | blob b => rfl

/-! ### What a statement leaves to be done -/

section

variable {text : String → String} {scale : SqlValue → SqlValue} {era : ℕ} {f g : EraFile}
  {t c : String} {T : SqlTable} {cs : Finset String} {r r' : SqlRow} {φ : SqlRow → SqlRow}

/-- What the names of placements are read from is the names of nodes. -/
theorem inherited_setTable (cs : Finset String) (h : f.tables t = some T)
    (hnode : t = "node" → ∀ r ∈ T.rows, φ r "node_id" = r "node_id" ∧ φ r "name" = r "name")
    (v : SqlValue) :
    (f.setTable t ⟨cs, T.rows.map φ⟩).inherited v = f.inherited v := by
  by_cases ht : t = "node"
  · subst ht
    have hkept := hnode rfl
    have hfind : (T.rows.map φ).find? (fun r => r "node_id" = v) =
        (T.rows.find? (fun r => r "node_id" = v)).map φ := by
      rw [List.find?_map]
      congr 1
      apply List.find?_congr
      intro r hr
      simp only [Function.comp_apply, (hkept r hr).1]
    have hnew : (f.setTable "node" ⟨cs, T.rows.map φ⟩).tables "node" = some ⟨cs, T.rows.map φ⟩ :=
      setTable_self ..
    rw [inherited, inherited, hnew, h, Option.bind_some, Option.bind_some, hfind]
    cases hr : T.rows.find? (fun r => r "node_id" = v) with
    | none => rfl
    | some r =>
      simp only [Option.map_some, (hkept r (List.mem_of_find?_eq_some hr)).2]
  · have hsame : (f.setTable t ⟨cs, T.rows.map φ⟩).tables "node" = f.tables "node" :=
      setTable_ne _ _ (Ne.symm ht)
    rw [inherited, inherited, hsame]

theorem settledRow_file (h : ∀ v, g.inherited v = f.inherited v) :
    g.settledRow scale era t cs r = f.settledRow scale era t cs r := by
  funext c
  simp only [settledRow, h]

theorem settledRow_congr {cs' : Finset String} (hvalue : r' c = r c) (hcolumn : c ∈ cs' ↔ c ∈ cs)
    (hto : t = "edge" → r' "to_id" = r "to_id") :
    f.settledRow scale era t cs' r' c = f.settledRow scale era t cs r c := by
  simp only [settledRow, hvalue, hcolumn]
  split
  · rfl
  split
  · rename_i hedge
    rw [hto hedge.1]
  · rfl

/-- A table rewritten row by row, with nothing that settling would see. -/
theorem settled_setTable (h : f.tables t = some T)
    (hnode : t = "node" → ∀ r ∈ T.rows, φ r "node_id" = r "node_id" ∧ φ r "name" = r "name")
    (hcolumns : cs ∪ addedColumns t = T.columns ∪ addedColumns t)
    (hrows : ∀ r ∈ T.rows, f.settledRow scale era t cs (φ r) =
      f.settledRow scale era t T.columns r) :
    (f.setTable t ⟨cs, T.rows.map φ⟩).settled text scale era = f.settled text scale era := by
  have hinherited := inherited_setTable cs h hnode
  apply EraFile.ext
  · funext u
    by_cases hu : u = t
    · subst hu
      have hnew : (f.setTable u ⟨cs, T.rows.map φ⟩).tables u = some ⟨cs, T.rows.map φ⟩ :=
        setTable_self ..
      simp only [settled, hnew, h, settledTable, hcolumns, List.map_map, Option.some.injEq,
        SqlTable.mk.injEq, true_and]
      apply List.map_congr_left
      intro r hr
      rw [Function.comp_apply, settledRow_file hinherited]
      exact hrows r hr
    · have hold : (f.setTable t ⟨cs, T.rows.map φ⟩).tables u = f.tables u := setTable_ne _ _ hu
      simp only [settled, hold]
      cases f.tables u with
      | none => rfl
      | some U =>
        simp only [settledTable, Option.some.injEq, SqlTable.mk.injEq, true_and]
        apply List.map_congr_left
        intro r hr
        exact settledRow_file hinherited
  · rfl
  · rfl
  · rfl
  · rfl
  · rfl

/-! ### The lists of columns -/

theorem added_spec : ∀ p ∈ ADDED, (p.1, p.2.1) ∉ TIMES ∧ addedValue p.1 p.2.1 = some p.2.2 ∧
    p.2.1 ∈ addedColumns p.1 ∧
    p.2.1 ≠ "to_id" ∧ p.2.1 ≠ "node_id" ∧ (p.1 = "node" → p.2.1 ≠ "name") ∧
      (p.1 = "edge" → p.2.1 = "name" ∧ p.2.2 = .null) ∧
    p.1 ∈ BASE_TABLES := by
  decide +kernel

theorem added_schema : ∀ p ∈ ADDED, ∃ cs, schemaTable p.1 = some cs ∧ p.2.1 ∈ cs := by
  decide +kernel

theorem times_spec : ∀ p ∈ TIMES, p.2 ≠ "to_id" ∧ p.2 ≠ "node_id" ∧ p.2 ≠ "name" ∧ p.1 ≠ "edge" ∧
    addedValue p.1 p.2 = none ∧
    p.1 ∈ BASE_TABLES ∧ ∃ cs, schemaTable p.1 = some cs ∧ p.2 ∈ cs ∧ p.2 ∉ addedColumns p.1 := by
  decide +kernel

/-! ### One statement -/

/-- What settling sees of one rewriting of a table's rows. -/
structure Unseen (era : ℕ) (f : EraFile) (t : String) (T : SqlTable) (cs : Finset String)
    (φ : SqlRow → SqlRow) : Prop where
  grows : T.columns ⊆ cs
  columns : cs ∪ addedColumns t = T.columns ∪ addedColumns t
  node : t = "node" → ∀ r ∈ T.rows, φ r "node_id" = r "node_id" ∧ φ r "name" = r "name"
  edge : t = "edge" → ∀ r ∈ T.rows, φ r "to_id" = r "to_id"
  times : ∀ c, (t, c) ∈ TIMES → ∀ r ∈ T.rows, φ r c = r c ∨ era < 2 ∧ φ r c = rescale (r c)
  rows : ∀ r ∈ T.rows, f.settledRow rescale era t cs (φ r) = f.settledRow rescale era t T.columns r

theorem Unseen.keeps (hunseen : Unseen era f t T cs φ) (h : Fine era f) (ht : f.tables t = some T) :
    Fine era (f.setTable t ⟨cs, T.rows.map φ⟩) ∧
      (f.setTable t ⟨cs, T.rows.map φ⟩).settled text rescale era = f.settled text rescale era := by
  refine ⟨?_, settled_setTable ht hunseen.node hunseen.columns hunseen.rows⟩
  have hother : ∀ u U, u ≠ t → (f.setTable t ⟨cs, T.rows.map φ⟩).tables u = some U →
      f.tables u = some U := by
    intro u U hu hU
    rwa [setTable_ne _ _ hu] at hU
  have hown : ∀ U, (f.setTable t ⟨cs, T.rows.map φ⟩).tables t = some U →
      (⟨cs, T.rows.map φ⟩ : SqlTable) = U := by
    intro U hU
    rw [setTable_self] at hU
    exact Option.some.inj hU
  refine { version := h.version, there := ?_, columns := ?_, triggers := h.triggers,
           views := h.views, placed := ?_, times := ?_ }
  · intro u hu
    by_cases hut : u = t
    · subst hut
      simp
    · rw [setTable_ne _ _ hut]
      exact h.there u hu
  · intro u U hU ds hds c hc
    by_cases hut : u = t
    · subst hut
      obtain rfl := hown U hU
      exact (h.columns u T ht ds hds c hc).imp_left (fun hc => hunseen.grows hc)
    · exact h.columns u U (hother u U hut hU) ds hds c hc
  · intro U hU r hr
    by_cases hut : "edge" = t
    · subst hut
      obtain rfl := hown U hU
      obtain ⟨r₀, hr₀, rfl⟩ := List.mem_map.mp hr
      rw [hunseen.edge rfl r₀ hr₀]
      exact h.placed T ht r₀ hr₀
    · exact h.placed U (hother _ U hut hU) r hr
  · intro hera p hp U hU r hr
    by_cases hut : p.1 = t
    · subst hut
      obtain rfl := hown U hU
      obtain ⟨r₀, hr₀, rfl⟩ := List.mem_map.mp hr
      have hfine := h.times hera p hp T ht r₀ hr₀
      rcases hunseen.times p.2 hp r₀ hr₀ with hsame | ⟨-, hscaled⟩
      · rw [hsame]
        exact hfine
      · rw [hscaled]
        exact hfine.rescale.1
    · exact h.times hera p hp U (hother _ U hut hU) r hr

theorem addColumn_unseen {v : SqlValue} (h : (t, c, v) ∈ ADDED) (hc : c ∉ T.columns) :
    Unseen era f t T (insert c T.columns) (fun r => Function.update r c v) := by
  obtain ⟨htimes, hvalue, hadded, hto, hid, hnode, hedge, -⟩ := added_spec _ h
  refine ⟨Finset.subset_insert c T.columns, ?_, ?_, ?_, ?_, ?_⟩
  · rw [Finset.insert_union, Finset.insert_eq_of_mem (Finset.mem_union_right _ hadded)]
  · intro ht r hr
    exact ⟨Function.update_of_ne (Ne.symm hid) _ _, Function.update_of_ne (Ne.symm (hnode ht)) _ _⟩
  · intro ht r hr
    exact Function.update_of_ne (Ne.symm hto) _ _
  · intro d hd r hr
    have hne : d ≠ c := fun heq => htimes (heq ▸ hd)
    exact Or.inl (Function.update_of_ne hne _ _)
  · intro r hr
    funext d
    by_cases hd : d = c
    · -- the column itself: its rows read as if it had been there
      subst hd
      have hself : d ∈ insert d T.columns := Finset.mem_insert_self ..
      simp only [settledRow, htimes, and_false, if_false, hvalue, hself, hc, if_true, true_and,
        false_and, Function.update_self]
      by_cases hname : t = "edge" ∧ d = "name"
      · obtain rfl : v = .null := (hedge hname.1).2
        simp [hname]
      · simp [hname]
    · exact settledRow_congr (Function.update_of_ne hd _ _) (by simp [hd])
        (fun _ => Function.update_of_ne (Ne.symm hto) _ _)

theorem scaleTimes_unseen (h : (t, c) ∈ TIMES) (hera : era < 2)
    (hfine : ∀ r ∈ T.rows, FineTime (r c)) :
    Unseen era f t T T.columns (fun r => Function.update r c (rescale (r c))) := by
  obtain ⟨hto, hid, hname, -, -, -, -⟩ := times_spec _ h
  refine ⟨Finset.Subset.refl _, rfl, ?_, ?_, ?_, ?_⟩
  · intro ht r hr
    exact ⟨Function.update_of_ne (Ne.symm hid) _ _, Function.update_of_ne (Ne.symm hname) _ _⟩
  · intro ht r hr
    exact Function.update_of_ne (Ne.symm hto) _ _
  · intro d hd r hr
    by_cases hdc : d = c
    · subst hdc
      exact Or.inr ⟨hera, Function.update_self ..⟩
    · exact Or.inl (Function.update_of_ne hdc _ _)
  · intro r hr
    funext d
    by_cases hd : d = c
    · subst hd
      simp only [settledRow, h, hera, and_self, if_true, Function.update_self]
      exact (hfine r hr).rescale.2
    · exact settledRow_congr (Function.update_of_ne hd _ _) Iff.rfl
        (fun _ => Function.update_of_ne (Ne.symm hto) _ _)

theorem nameEdge_apply {c : String} (hc : c ≠ "name") : f.nameEdge r c = r c := by
  rw [nameEdge]
  split
  · exact Function.update_of_ne hc _ _
  · rfl

theorem nameEdges_unseen (hname : "name" ∈ T.columns) :
    Unseen era f "edge" T T.columns f.nameEdge := by
  have hto : ∀ r, f.nameEdge r "to_id" = r "to_id" := fun r => nameEdge_apply (by decide)
  refine ⟨Finset.Subset.refl _, rfl, ?_, fun _ r _ => hto r, ?_, ?_⟩
  · intro ht
    exact absurd ht (by decide)
  · intro c hc r hr
    have hne : "edge" ≠ ("edge" : String) := (times_spec _ hc).2.2.2.1
    exact absurd rfl hne
  · intro r hr
    funext c
    by_cases hc : c = "name"
    · -- a name that is null is read from the node either way
      subst hc
      have htimes : ("edge", "name") ∉ TIMES := by decide
      simp only [settledRow, htimes, and_false, if_false, and_self, if_true, hname, true_and, hto]
      by_cases hnull : r "name" = .null
      · have hnamed : f.nameEdge r "name" = f.inherited (r "to_id") := by
          rw [nameEdge, if_pos hnull, Function.update_self]
        rw [hnamed, if_neg (not_not.mpr hnull)]
        split
        · rfl
        · rfl
      · have hkept : f.nameEdge r "name" = r "name" := by
          rw [nameEdge, if_neg hnull]
        rw [hkept]
    · exact settledRow_congr (nameEdge_apply hc) Iff.rfl (fun _ => hto r)

/-- What the script makes is what the schema has. -/
def Agrees : EraStmt → Prop
  | .createTable t cs => schemaTable t = some cs ∧ addedColumns t ⊆ cs ∧ t ∈ schemaNames
  | .createIndex n t cs =>
    schemaIndex n ∧ n ≠ "edge_active_placement" ∧ t ∈ BASE_TABLES ∧ ∃ ds, schemaTable t = some ds ∧
      cs ⊆ ds
  | .createTrigger n => schemaTrigger n ∧ n ∈ schemaNames
  | .createView n | .recreateView n => schemaView n ∧ n ∈ schemaNames
  | _ => False

instance : DecidablePred Agrees := by
  intro s
  cases s
  all_goals
    unfold Agrees
    infer_instance

theorem script_agrees : ∀ s ∈ schemaScript, Agrees s := by
  decide +kernel

/-- A table that was missing is made as the schema has it. -/
theorem createTable_keeps (h : Fine era f) (hnone : f.tables t = none)
    (hschema : schemaTable t = some cs) (hadded : addedColumns t ⊆ cs) :
    Fine era (f.setTable t ⟨cs, []⟩) ∧ (f.setTable t ⟨cs, []⟩).settled text rescale era =
      f.settled text rescale era := by
  have hother : ∀ u U, u ≠ t → (f.setTable t ⟨cs, []⟩).tables u = some U → f.tables u = some U := by
    intro u U hu hU
    rwa [setTable_ne _ _ hu] at hU
  have hown : ∀ U, (f.setTable t ⟨cs, []⟩).tables t = some U → (⟨cs, []⟩ : SqlTable) = U := by
    intro U hU
    rw [setTable_self] at hU
    exact Option.some.inj hU
  constructor
  · refine { version := h.version, there := ?_, columns := ?_, triggers := h.triggers,
             views := h.views, placed := ?_, times := ?_ }
    · intro u hu
      by_cases hut : u = t
      · subst hut
        simp
      · rw [setTable_ne _ _ hut]
        exact h.there u hu
    · intro u U hU ds hds c hc
      by_cases hut : u = t
      · subst hut
        obtain rfl := hown U hU
        obtain rfl := Option.some.inj (hschema.symm.trans hds)
        exact Or.inl hc
      · exact h.columns u U (hother u U hut hU) ds hds c hc
    · intro U hU r hr
      by_cases hut : "edge" = t
      · subst hut
        obtain rfl := hown U hU
        cases hr
      · exact h.placed U (hother _ U hut hU) r hr
    · intro hera p hp U hU r hr
      by_cases hut : p.1 = t
      · subst hut
        obtain rfl := hown U hU
        cases hr
      · exact h.times hera p hp U (hother _ U hut hU) r hr
  -- a new table has no rows, so the names that edges inherit stay as they are
  · have hinherited : ∀ v, (f.setTable t ⟨cs, []⟩).inherited v = f.inherited v := by
      intro v
      by_cases ht : "node" = t
      · subst ht
        rw [inherited, inherited, setTable_self, hnone]
        rfl
      · rw [inherited, inherited, setTable_ne _ _ ht]
    apply EraFile.ext
    · funext u
      by_cases hu : u = t
      · subst hu
        simp only [settled, setTable_self, hnone, hschema, settledTable, Option.map_some,
          List.map_nil,
          Finset.union_eq_left.mpr hadded]
      · simp only [settled, setTable_ne _ _ hu]
        cases f.tables u with
        | none => rfl
        | some U =>
          simp only [settledTable, Option.some.injEq, SqlTable.mk.injEq, true_and]
          apply List.map_congr_left
          intro r hr
          exact settledRow_file hinherited
    · rfl
    · rfl
    · rfl
    · rfl
    · rfl

/-- What the migrations and the script carry out keeps a file as it should be and what is
left to be done. -/
theorem exec_allowed {s : EraStmt} (h : Fine era f) (hs : Allowed era s)
    (hexec : exec text s f = .ok g) :
    Fine era g ∧ g.settled text rescale era = f.settled text rescale era := by
  -- the migrations' statements change what `settled` will do anyway; the script's are guarded by
  -- `IF NOT EXISTS`, so each has a case for the table, index, trigger or view that is there
  cases s with
  | addColumn t c v =>
    obtain ⟨-, hmem⟩ := hs
    rw [exec] at hexec
    split at hexec
    · rename_i T hT
      obtain rfl := Except.ok.inj hexec
      by_cases hc : c ∈ T.columns
      · have hsame : f.setTable t (T.addColumn c v) = f := by
          rw [SqlTable.addColumn, if_pos hc, setTable, ← hT, Function.update_eq_self]
        rw [hsame]
        exact ⟨h, rfl⟩
      · rw [SqlTable.addColumn, if_neg hc]
        exact (addColumn_unseen hmem hc).keeps h hT
    · cases hexec
  | scaleTimes t c =>
    obtain ⟨hera, hmem⟩ := hs
    rw [exec] at hexec
    split at hexec
    · rename_i T hT
      split at hexec
      · cases hexec
      split at hexec
      · cases hexec
      · obtain rfl := Except.ok.inj hexec
        exact (scaleTimes_unseen hmem hera (h.times hera _ hmem T hT)).keeps h hT
    · cases hexec
  | nameEdges =>
    rw [exec] at hexec
    split at hexec
    · rename_i T N hT hN
      split at hexec
      · cases hexec
      · rename_i hname
        obtain rfl := Except.ok.inj hexec
        exact (nameEdges_unseen (not_not.mp hname)).keeps h hT
    · cases hexec
  -- the old placement index: `settled` drops it and the script makes it anew
  | dropIndex n =>
    obtain ⟨hera, rfl⟩ := hs
    obtain rfl := Except.ok.inj hexec
    refine ⟨⟨⟨h.version, h.there, h.columns, h.triggers, h.views, h.placed⟩, h.times⟩, ?_⟩
    apply EraFile.ext
    · rfl
    · funext m
      by_cases hm : m = "edge_active_placement"
      · simp [settled, hm, hera]
      · simp [settled, hm]
    · rfl
    · rfl
    · rfl
    · rfl
  | dropTrigger n =>
    obtain rfl := Except.ok.inj hexec
    refine ⟨⟨⟨h.version, h.there, h.columns, ?_, h.views, h.placed⟩, h.times⟩, rfl⟩
    intro m hm
    by_cases hmn : m = n
    · simp [hmn] at hm
    · exact h.triggers m (by simpa [hmn] using hm)
  | dropView n =>
    obtain rfl := Except.ok.inj hexec
    refine ⟨⟨⟨h.version, h.there, h.columns, h.triggers, ?_, h.placed⟩, h.times⟩, rfl⟩
    intro m hm
    by_cases hmn : m = n
    · simp [hmn] at hm
    · exact h.views m (by simpa [hmn] using hm)
  | createTable t cs =>
    obtain ⟨hschema, hadded, -⟩ := script_agrees _ hs
    rw [exec] at hexec
    obtain rfl := Except.ok.inj hexec
    split
    · exact ⟨h, rfl⟩
    · rename_i hnone
      exact createTable_keeps h (Option.not_isSome_iff_eq_none.mp hnone) hschema hadded
  | createIndex n t cs =>
    obtain ⟨hindex, hdropped, -⟩ := script_agrees _ hs
    rw [exec] at hexec
    split at hexec
    · obtain rfl := Except.ok.inj hexec
      exact ⟨h, rfl⟩
    · rename_i hnone
      split at hexec
      · split at hexec
        · obtain rfl := Except.ok.inj hexec
          refine ⟨⟨⟨h.version, h.there, h.columns, h.triggers, h.views, h.placed⟩, h.times⟩, ?_⟩
          apply EraFile.ext
          · rfl
          · funext m
            by_cases hm : m = n
            · subst hm
              simp [settled, hdropped, hindex, Option.not_isSome_iff_eq_none.mp hnone]
            · simp [settled, hm]
          · rfl
          · rfl
          · rfl
          · rfl
        · cases hexec
      · cases hexec
  | createTrigger n =>
    obtain ⟨-, hname⟩ := script_agrees _ hs
    rw [exec] at hexec
    obtain rfl := Except.ok.inj hexec
    split
    · exact ⟨h, rfl⟩
    · refine ⟨⟨⟨h.version, h.there, h.columns, ?_, h.views, h.placed⟩, h.times⟩, rfl⟩
      intro m hm
      by_cases hmn : m = n
      · rw [hmn]
        exact List.mem_append_right _ hname
      · exact h.triggers m (by simpa [hmn] using hm)
  | createView n =>
    obtain ⟨-, hname⟩ := script_agrees _ hs
    rw [exec] at hexec
    obtain rfl := Except.ok.inj hexec
    split
    · exact ⟨h, rfl⟩
    · refine ⟨⟨⟨h.version, h.there, h.columns, h.triggers, ?_, h.placed⟩, h.times⟩, rfl⟩
      intro m hm
      by_cases hmn : m = n
      · rw [hmn]
        exact List.mem_append_right _ hname
      · exact h.views m (by simpa [hmn] using hm)
  | recreateView n =>
    obtain ⟨-, hname⟩ := script_agrees _ hs
    obtain rfl := Except.ok.inj hexec
    refine ⟨⟨⟨h.version, h.there, h.columns, h.triggers, ?_, h.placed⟩, h.times⟩, rfl⟩
    intro m hm
    by_cases hmn : m = n
    · rw [hmn]
      exact List.mem_append_right _ hname
    · exact h.views m (by simpa [hmn] using hm)
  | stamp => exact hs.elim

end

end EraFile

end Aloelite
