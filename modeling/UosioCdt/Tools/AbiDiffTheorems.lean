import UosioCdt.Tools.AbiDiff
import Mathlib.Data.List.Nodup
import Mathlib.Tactic.ByContra

/-!
# What `uosio-abidiff` reports

For every section, whether the output contains a report of it, and when that is the case exactly if
the definitions of the section differ.
-/

namespace UosioCdt.Tools

/-- The output contains a difference of the section. -/
def Output.Shows (o : Output) (sec : DiffSection) : Prop := ∃ r ∈ o.reports, r.sectionOf = sec

/-! ## The search for a namesake -/

section loops

variable {α : Type} {name : α → String} {same : α → α → Bool} {x : α} {ys : List α} {f : Bool}

/-- Without a namesake the flag stays. -/
lemma foundLoop_of_notMem (h : ∀ y ∈ ys, name x ≠ name y) : foundLoop name same x f ys = f := by
  induction ys with
  | nil => rfl
  | cons y ys ih =>
    rw [foundLoop, if_neg (h y List.mem_cons_self)]
    exact ih fun z hz => h z (List.mem_cons_of_mem _ hz)

/-- A definition is found when its namesake is the same. -/
lemma foundLoop_iff (hunique : (ys.map name).Nodup) :
    foundLoop name same x false ys = true ↔ ∃ y ∈ ys, name x = name y ∧ same x y = true := by
  induction ys with
  | nil => simp [foundLoop]
  | cons y ys ih =>
    obtain ⟨hy, hunique⟩ := List.nodup_cons.mp hunique
    rw [foundLoop, List.exists_mem_cons_iff]
    by_cases hxy : name x = name y
    · have hrest : ∀ z ∈ ys, name x ≠ name z := fun z hz h =>
        hy (List.mem_map.mpr ⟨z, hz, h.symm.trans hxy⟩)
      have hno : ¬ ∃ z ∈ ys, name x = name z ∧ same x z = true := fun ⟨z, hz, h, _⟩ =>
        hrest z hz h
      rw [if_pos hxy, foundLoop_of_notMem hrest, or_iff_left hno, and_iff_right hxy]
      cases same x y <;> simp
    · have hno : ¬ (name x = name y ∧ same x y = true) := fun h => hxy h.1
      rw [if_neg hxy, ih hunique, or_iff_right hno]

lemma fieldsFound_true (fs gs : List AbiField) : fieldsFound true fs gs = true := by
  induction fs generalizing gs with
  | nil => rfl
  | cons f fs ih =>
    cases gs with
    | nil => rfl
    | cons g gs =>
      rw [fieldsFound]
      split
      · rfl
      · exact ih gs

/-- Only the first fields are looked at, and there must be some. -/
lemma fieldsFound_iff (fs gs : List AbiField) :
    fieldsFound false fs gs = true ↔ fs.head? = gs.head? ∧ fs ≠ [] := by
  cases fs with
  | nil => simp [fieldsFound]
  | cons f fs =>
    cases gs with
    | nil => simp [fieldsFound]
    | cons g gs =>
      obtain ⟨n, t⟩ := f
      obtain ⟨n', t'⟩ := g
      rw [fieldsFound, fieldsFound_true]
      simp

/-- What `find_structs` takes for the same struct. -/
def LooksSame (s t : AbiStruct) : Prop :=
  s.name = t.name ∧ s.base = t.base ∧ s.fields.length = t.fields.length ∧
    s.fields.head? = t.fields.head? ∧ s.fields ≠ []

lemma structFound_of_notMem {s : AbiStruct} {ts : List AbiStruct} (h : ∀ t ∈ ts, s.name ≠ t.name) :
    structFound s f ts = f := by
  induction ts with
  | nil => rfl
  | cons t ts ih =>
    rw [structFound, if_neg (h t List.mem_cons_self)]
    exact ih fun u hu => h u (List.mem_cons_of_mem _ hu)

lemma structFound_iff {s : AbiStruct} {ts : List AbiStruct}
    (hunique : (ts.map AbiStruct.name).Nodup) :
    structFound s false ts = true ↔ ∃ t ∈ ts, LooksSame s t := by
  induction ts with
  | nil => simp [structFound]
  | cons t ts ih =>
    obtain ⟨ht, hunique⟩ := List.nodup_cons.mp hunique
    rw [structFound, List.exists_mem_cons_iff]
    by_cases hst : s.name = t.name
    · have hrest : ∀ u ∈ ts, s.name ≠ u.name := fun u hu h =>
        ht (List.mem_map.mpr ⟨u, hu, h.symm.trans hst⟩)
      have hno : ¬ ∃ u ∈ ts, LooksSame s u := fun ⟨u, hu, h⟩ => hrest u hu h.1
      rw [if_pos hst, structFound_of_notMem hrest, or_iff_left hno]
      unfold LooksSame
      by_cases hlen : s.fields.length = t.fields.length
      · by_cases hbase : s.base = t.base
        · rw [if_neg (not_not.mpr hlen), if_neg (not_not.mpr hbase), fieldsFound_iff]
          tauto
        · rw [if_neg (not_not.mpr hlen), if_pos hbase]
          simp [hbase]
      · rw [if_pos hlen]
        simp [hlen]
    · have hno : ¬ LooksSame s t := fun h => hst h.1
      rw [if_neg hst, ih hunique, or_iff_right hno]

/-! ## The search for a variant -/

/-- The list stops before the other one does. -/
def Stops (ys xs : List String) : Prop := ys <+: xs ∧ ys.length < xs.length

lemma compareTypes_eq (xs ys : List String) :
    (Stops ys xs → compareTypes xs ys = .error .invalidSubscript) ∧
      (¬ Stops ys xs → compareTypes xs ys = .ok ()) := by
  induction xs generalizing ys with
  | nil => exact ⟨fun h => absurd h.2 (Nat.not_lt_zero _), fun _ => rfl⟩
  | cons x xs ih =>
    cases ys with
    | nil =>
      have hstops : Stops [] (x :: xs) := ⟨List.nil_prefix, Nat.succ_pos _⟩
      exact ⟨fun _ => rfl, fun h => absurd hstops h⟩
    | cons y ys =>
      rw [compareTypes]
      by_cases hxy : x = y
      · have hstops : Stops (y :: ys) (x :: xs) ↔ Stops ys xs := by
          unfold Stops
          rw [hxy, List.cons_prefix_cons, List.length_cons, List.length_cons,
            Nat.add_lt_add_iff_right]
          tauto
        rw [if_neg (not_not.mpr hxy), hstops]
        exact ih ys
      · have hstops : ¬ Stops (y :: ys) (x :: xs) := fun h =>
          hxy (List.cons_prefix_cons.mp h.1).1.symm
        rw [if_pos hxy]
        exact ⟨fun h => absurd h hstops, fun _ => rfl⟩

/-- The other ABI has a variant of the name, whose alternatives do not stop early. -/
def Known (v : AbiVariant) (ws : List AbiVariant) : Prop :=
  ∃ w ∈ ws, v.name = w.name ∧ ¬ Stops w.types v.types

lemma variantFound_of_notMem {v : AbiVariant} {ws : List AbiVariant}
    (h : ∀ w ∈ ws, v.name ≠ w.name) : variantFound v f ws = .ok f := by
  induction ws with
  | nil => rfl
  | cons w ws ih =>
    rw [variantFound, if_neg (h w List.mem_cons_self)]
    exact ih fun u hu => h u (List.mem_cons_of_mem _ hu)

/-- The three results of the search. -/
lemma variantFound_cases {v : AbiVariant} {ws : List AbiVariant}
    (hunique : (ws.map AbiVariant.name).Nodup) :
    (variantFound v false ws = .ok true ↔ Known v ws) ∧
      (variantFound v false ws = .ok false ↔ ∀ w ∈ ws, v.name ≠ w.name) := by
  induction ws with
  | nil => simp [variantFound, Known]
  | cons w ws ih =>
    obtain ⟨hw, hunique⟩ := List.nodup_cons.mp hunique
    unfold Known at ih ⊢
    rw [variantFound, List.exists_mem_cons_iff, List.forall_mem_cons]
    by_cases hvw : v.name = w.name
    · have hrest : ∀ u ∈ ws, v.name ≠ u.name := fun u hu h =>
        hw (List.mem_map.mpr ⟨u, hu, h.symm.trans hvw⟩)
      have hno : ¬ ∃ u ∈ ws, v.name = u.name ∧ ¬ Stops u.types v.types := fun ⟨u, hu, h, _⟩ =>
        hrest u hu h
      rw [if_pos hvw, or_iff_left hno, variantFound_of_notMem hrest]
      obtain ⟨herr, hok⟩ := compareTypes_eq v.types w.types
      by_cases hstops : Stops w.types v.types
      · rw [herr hstops]
        simp [hvw, hstops, bind, Except.bind]
      · rw [hok hstops]
        simp [hvw, hstops, bind, Except.bind]
    · have hno : ¬ (v.name = w.name ∧ ¬ Stops w.types v.types) := fun h => hvw h.1
      rw [if_neg hvw, or_iff_right hno, and_iff_right hvw]
      exact ih hunique

end loops

/-! ## The loop over the definitions -/

section findLoop

variable {α : Type} {found : α → Except JsonError Bool} {print : α → Output} {xs : List α}

/-- There is a report when the first definition that is not found ends the search without an
exception. -/
lemma findLoop_reports (hprint : ∀ x, (print x).reports ≠ []) :
    (findLoop found print xs).reports ≠ [] ↔ ∃ pre x post, xs = pre ++ x :: post ∧
      (∀ u ∈ pre, found u = .ok true) ∧ found x = .ok false := by
  induction xs with
  | nil => simp [findLoop, Output.nothing]
  | cons x xs ih =>
    -- a definition behind the first one comes after it
    have hsplit : (∃ pre z post, x :: xs = pre ++ z :: post ∧ (∀ u ∈ pre, found u = .ok true) ∧
        found z = .ok false) ↔ found x = .ok false ∨ (found x = .ok true ∧
          ∃ pre z post, xs = pre ++ z :: post ∧ (∀ u ∈ pre, found u = .ok true) ∧
            found z = .ok false) := by
      constructor
      · rintro ⟨pre, z, post, heq, hpre, hz⟩
        cases pre with
        | nil =>
          obtain ⟨rfl, -⟩ := List.cons.inj heq
          exact .inl hz
        | cons u pre =>
          obtain ⟨rfl, rfl⟩ := List.cons.inj heq
          rw [List.forall_mem_cons] at hpre
          exact .inr ⟨hpre.1, pre, z, post, rfl, hpre.2, hz⟩
      · rintro (hx | ⟨hx, pre, z, post, rfl, hpre, hz⟩)
        · exact ⟨[], x, xs, rfl, fun u hu => absurd hu List.not_mem_nil, hx⟩
        · exact ⟨x :: pre, z, post, rfl, List.forall_mem_cons.mpr ⟨hx, hpre⟩, hz⟩
    rw [hsplit, ← ih, findLoop]
    cases hx : found x with
    | error e => simp
    | ok b =>
      cases b with
      | true => simp
      | false =>
        have hne := hprint x
        unfold Output.andThen
        cases (print x).error <;> simp [hne]

lemma findLoop_sectionOf {sec : DiffSection}
    (hprint : ∀ x, ∀ r ∈ (print x).reports, r.sectionOf = sec) :
    ∀ r ∈ (findLoop found print xs).reports, r.sectionOf = sec := by
  induction xs with
  | nil => exact fun r hr => absurd hr List.not_mem_nil
  | cons x xs ih =>
    intro r hr
    rw [findLoop] at hr
    cases hx : found x with
    | error e =>
      rw [hx] at hr
      exact absurd hr List.not_mem_nil
    | ok b =>
      rw [hx] at hr
      cases b with
      | true => exact ih r hr
      | false =>
        unfold Output.andThen at hr
        cases herr : (print x).error with
        | some e =>
          simp only [herr] at hr
          exact hprint x r hr
        | none =>
          simp only [herr] at hr
          rcases List.mem_append.mp hr with hr | hr
          · exact hprint x r hr
          · exact ih r hr

/-- A search that throws nothing, with a printer that throws nothing. -/
lemma findLoop_error (hprint : ∀ x, (print x).error = none)
    (hfound : ∀ x ∈ xs, ∃ b, found x = .ok b) : (findLoop found print xs).error = none := by
  induction xs with
  | nil => rfl
  | cons x xs ih =>
    obtain ⟨b, hb⟩ := hfound x List.mem_cons_self
    have hrest := ih fun y hy => hfound y (List.mem_cons_of_mem _ hy)
    rw [findLoop, hb]
    cases b with
    | true => exact hrest
    | false =>
      unfold Output.andThen
      rw [hprint x]
      exact hrest

/-- The search stops at the first exception. -/
lemma findLoop_error_iff (hprint : ∀ x, (print x).error = none) :
    (findLoop found print xs).error = none ↔ ∀ x ∈ xs, ∃ b, found x = .ok b := by
  refine ⟨?_, findLoop_error hprint⟩
  induction xs with
  | nil => exact fun _ x hx => absurd hx List.not_mem_nil
  | cons x xs ih =>
    intro h
    rw [findLoop] at h
    cases hx : found x with
    | error e =>
      rw [hx] at h
      cases h
    | ok b =>
      rw [List.forall_mem_cons]
      refine ⟨⟨b, hx⟩, ih ?_⟩
      rw [hx] at h
      cases b with
      | true => exact h
      | false =>
        unfold Output.andThen at h
        rw [hprint x] at h
        exact h

/-- A printer that always throws does so at the first report. -/
lemma findLoop_error_of_throws {g : α → Bool} (hprint : ∀ x, (print x).error ≠ none) :
    (findLoop (fun x => .ok (g x)) print xs).error = none ↔ ∀ x ∈ xs, g x = true := by
  induction xs with
  | nil => exact ⟨fun _ x hx => absurd hx List.not_mem_nil, fun _ => rfl⟩
  | cons x xs ih =>
    rw [findLoop, List.forall_mem_cons]
    cases hx : g x with
    | true => simp [ih]
    | false =>
      have hne := hprint x
      unfold Output.andThen
      cases herr : (print x).error with
      | none => exact absurd herr hne
      | some e => simp

/-- A search without exceptions reports whatever is not found. -/
lemma findLoop_reports_of_ok {g : α → Bool} (hprint : ∀ x, (print x).reports ≠ []) :
    (findLoop (fun x => .ok (g x)) print xs).reports ≠ [] ↔ ∃ x ∈ xs, ¬ g x = true := by
  rw [findLoop_reports hprint]
  constructor
  · rintro ⟨pre, x, post, rfl, -, hx⟩
    refine ⟨x, List.mem_append_right _ List.mem_cons_self, ?_⟩
    rw [Except.ok.inj hx]
    exact Bool.false_ne_true
  · intro h
    -- the first one that is not found
    induction xs with
    | nil => obtain ⟨x, hx, -⟩ := h; exact absurd hx List.not_mem_nil
    | cons x xs ih =>
      cases hx : g x with
      | false => exact ⟨[], x, xs, rfl, fun u hu => absurd hu List.not_mem_nil, by rw [hx]⟩
      | true =>
        obtain ⟨z, hz, hgz⟩ := h
        have hzx : z ∈ xs := (List.mem_cons.mp hz).resolve_left fun heq => hgz (heq ▸ hx)
        obtain ⟨pre, y, post, rfl, hpre, hy⟩ := ih ⟨z, hzx, hgz⟩
        exact ⟨x :: pre, y, post, rfl, List.forall_mem_cons.mpr ⟨by rw [hx], hpre⟩, hy⟩

end findLoop

/-! ## The two directions -/

namespace Output

variable {o p : Output} {sec : DiffSection}

lemma andThen_reports (h : o.error = none) : (o.andThen p).reports = o.reports ++ p.reports := by
  unfold andThen
  rw [h]

lemma andThen_error (h : o.error = none) : (o.andThen p).error = p.error := by
  unfold andThen
  rw [h]

lemma shows_andThen_iff : (o.andThen p).Shows sec ↔ o.Shows sec ∨ o.error = none ∧ p.Shows sec := by
  unfold Shows andThen
  cases o.error with
  | some e => simp
  | none => simp only [List.mem_append, or_and_right, exists_or, true_and]

lemma shows_andThen (h : o.error = none) : (o.andThen p).Shows sec ↔ o.Shows sec ∨ p.Shows sec := by
  rw [shows_andThen_iff, and_iff_right h]

/-- The reports of one section. -/
lemma shows_iff {sec' : DiffSection} (h : ∀ r ∈ o.reports, r.sectionOf = sec) :
    o.Shows sec' ↔ sec = sec' ∧ o.reports ≠ [] := by
  constructor
  · rintro ⟨r, hr, rfl⟩
    exact ⟨(h r hr).symm, List.ne_nil_of_mem hr⟩
  · rintro ⟨rfl, hne⟩
    obtain ⟨r, hr⟩ := List.exists_mem_of_ne_nil _ hne
    exact ⟨r, hr, h r hr⟩

end Output

section diffWith

variable {find : Abi → Abi → Char → Output} {a b : Abi} {sec : DiffSection}

lemma diffWith_sectionOf (h : ∀ a b d, ∀ r ∈ (find a b d).reports, r.sectionOf = sec) :
    ∀ r ∈ (diffWith find a b).reports, r.sectionOf = sec := by
  intro r hr
  unfold diffWith Output.andThen at hr
  cases herr : (find a b '<').error with
  | some e =>
    simp only [herr] at hr
    exact h a b _ r hr
  | none =>
    simp only [herr] at hr
    rcases List.mem_append.mp hr with hr | hr
    · exact h a b _ r hr
    · exact h b a _ r hr

lemma diffWith_error (h : ∀ a b d, (find a b d).error = none) : (diffWith find a b).error = none := by
  unfold diffWith
  rw [Output.andThen_error (h a b _)]
  exact h b a _

lemma diffWith_reports (h : ∀ a b d, (find a b d).error = none) :
    (diffWith find a b).reports ≠ [] ↔ (find a b '<').reports ≠ [] ∨ (find b a '>').reports ≠ [] := by
  unfold diffWith
  rw [Output.andThen_reports (h a b _)]
  simp only [ne_eq, List.append_eq_nil_iff]
  tauto

end diffWith

/-- Two lists differ as sets when one has an element that the other lacks. -/
lemma differ_iff {α : Type} {xs ys : List α} :
    (¬ ∀ x, x ∈ xs ↔ x ∈ ys) ↔ (∃ x ∈ xs, x ∉ ys) ∨ ∃ y ∈ ys, y ∉ xs := by
  constructor
  · intro h
    by_contra hno
    push Not at hno
    exact h fun x => ⟨hno.1 x, hno.2 x⟩
  · rintro (⟨x, hx, hno⟩ | ⟨y, hy, hno⟩) h
    · exact hno ((h x).mp hx)
    · exact hno ((h y).mpr hy)

/-! ## The sections -/

section sections

variable {a b : Abi} {d : Char}

lemma findStructs_error : (findStructs a b d).error = none :=
  findLoop_error (fun _ => rfl) fun _ _ => ⟨_, rfl⟩

lemma findTypes_error : (findTypes a b d).error = none :=
  findLoop_error (fun _ => rfl) fun _ _ => ⟨_, rfl⟩

lemma findActions_error : (findActions a b d).error = none :=
  findLoop_error (fun _ => rfl) fun _ _ => ⟨_, rfl⟩

lemma findTables_error : (findTables a b d).error = none :=
  findLoop_error (fun _ => rfl) fun _ _ => ⟨_, rfl⟩

lemma print_sectionOf {r : Report} {sec : DiffSection} (h : r.sectionOf = sec) :
    ∀ q ∈ (Output.print r).reports, q.sectionOf = sec := by
  intro q hq
  rw [List.mem_singleton.mp hq]
  exact h

/-- A struct that the other ABI has nothing like. -/
def Unseen (ss ts : List AbiStruct) : Prop := ∃ s ∈ ss, ∀ t ∈ ts, ¬ LooksSame s t

lemma findStructs_reports (hb : b.WellFormed) :
    (findStructs a b d).reports ≠ [] ↔ Unseen a.structs b.structs := by
  unfold findStructs Unseen
  rw [findLoop_reports_of_ok fun _ => List.cons_ne_nil _ _]
  simp only [structFound_iff hb.structs, not_exists, not_and]

/-- A test that compares all of a definition finds it when it is there. -/
lemma foundLoop_eq_mem {α : Type} {name : α → String} {same : α → α → Bool} {x : α} {ys : List α}
    (hunique : (ys.map name).Nodup) (hsame : ∀ y, name x = name y ∧ same x y = true ↔ x = y) :
    foundLoop name same x false ys = true ↔ x ∈ ys := by
  rw [foundLoop_iff hunique]
  simp only [hsame, exists_eq_right']

lemma findTypes_reports (hb : b.WellFormed) :
    (findTypes a b d).reports ≠ [] ↔ ∃ t ∈ a.types, t ∉ b.types := by
  unfold findTypes
  rw [findLoop_reports_of_ok fun _ => List.cons_ne_nil _ _]
  refine exists_congr fun t => and_congr_right fun _ => not_congr ?_
  refine foundLoop_eq_mem hb.types fun u => ?_
  obtain ⟨n, ty⟩ := t
  obtain ⟨n', ty'⟩ := u
  simp

lemma findActions_reports (hb : b.WellFormed) :
    (findActions a b d).reports ≠ [] ↔ ∃ t ∈ a.actions, t ∉ b.actions := by
  unfold findActions
  rw [findLoop_reports_of_ok fun _ => List.cons_ne_nil _ _]
  refine exists_congr fun t => and_congr_right fun _ => not_congr ?_
  refine foundLoop_eq_mem hb.actions fun u => ?_
  obtain ⟨n, ty, rc⟩ := t
  obtain ⟨n', ty', rc'⟩ := u
  simp

/-- A table that the other ABI does not have under this name with this type. -/
def UnseenTable (ts us : List AbiTable) : Prop :=
  ∃ t ∈ ts, ∀ u ∈ us, ¬ (t.name = u.name ∧ t.type = u.type)

lemma findTables_reports (hb : b.WellFormed) :
    (findTables a b d).reports ≠ [] ↔ UnseenTable a.tables b.tables := by
  unfold findTables UnseenTable
  rw [findLoop_reports_of_ok fun _ => List.cons_ne_nil _ _]
  simp only [foundLoop_iff hb.tables, beq_iff_eq, not_exists, not_and]

lemma findClauses_found (hb : b.WellFormed) (c : AbiRicardianClausePair) :
    foundLoop AbiRicardianClausePair.id (fun x y => x.body == y.body) c false b.ricardianClauses
      = true ↔ c ∈ b.ricardianClauses := by
  refine foundLoop_eq_mem hb.ricardianClauses fun u => ?_
  obtain ⟨i, body⟩ := c
  obtain ⟨i', body'⟩ := u
  simp

lemma findClauses_reports (hb : b.WellFormed) :
    (findClauses a b d).reports ≠ [] ↔ ∃ c ∈ a.ricardianClauses, c ∉ b.ricardianClauses := by
  unfold findClauses
  rw [findLoop_reports_of_ok fun _ => List.cons_ne_nil _ _]
  exact exists_congr fun c => and_congr_right fun _ => not_congr (findClauses_found hb c)

/-- The clauses end the output at the first difference. -/
lemma findClauses_error_iff (hb : b.WellFormed) :
    (findClauses a b d).error = none ↔ ∀ c ∈ a.ricardianClauses, c ∈ b.ricardianClauses := by
  unfold findClauses
  rw [findLoop_error_of_throws fun _ => Option.some_ne_none _]
  exact forall₂_congr fun c _ => findClauses_found hb c

/-- The first variant of which the other ABI has no suitable namesake has no namesake at all. -/
def ShowsFirst (vs ws : List AbiVariant) : Prop :=
  ∃ pre v post, vs = pre ++ v :: post ∧ (∀ u ∈ pre, Known u ws) ∧ ∀ w ∈ ws, v.name ≠ w.name

lemma findVariants_reports (hb : b.WellFormed) :
    (findVariants a b d).reports ≠ [] ↔ ShowsFirst a.variants b.variants := by
  unfold findVariants ShowsFirst
  rw [findLoop_reports fun _ => List.cons_ne_nil _ _]
  simp only [(variantFound_cases hb.variants).1, (variantFound_cases hb.variants).2]

lemma findVariants_error_iff (hb : b.WellFormed) : (findVariants a b d).error = none ↔
    ∀ v ∈ a.variants, Known v b.variants ∨ ∀ w ∈ b.variants, v.name ≠ w.name := by
  unfold findVariants
  rw [findLoop_error_iff fun _ => rfl]
  refine forall₂_congr fun v _ => ?_
  obtain ⟨htrue, hfalse⟩ := variantFound_cases (v := v) hb.variants
  rw [← htrue, ← hfalse]
  constructor
  · rintro ⟨f, hf⟩
    cases f with
    | true => exact .inl hf
    | false => exact .inr hf
  · rintro (hf | hf)
    · exact ⟨_, hf⟩
    · exact ⟨_, hf⟩

end sections

/-! ## The whole output -/

/-- The definitions of the section are not the same. -/
def Differs (a b : Abi) : DiffSection → Prop
  | .version => a.version ≠ b.version
  | .struct => ¬ ∀ s, s ∈ a.structs ↔ s ∈ b.structs
  | .type => ¬ ∀ t, t ∈ a.types ↔ t ∈ b.types
  | .action => ¬ ∀ x, x ∈ a.actions ↔ x ∈ b.actions
  | .table => ¬ ∀ t, t ∈ a.tables ↔ t ∈ b.tables
  | .clause => ¬ ∀ c, c ∈ a.ricardianClauses ↔ c ∈ b.ricardianClauses
  | .variant => ¬ ∀ v, v ∈ a.variants ↔ v ∈ b.variants

/-- The variants are compared, and one that is only in one of the ABIs is met before a variant of
the other ABI that stops early. -/
structure ShowsVariants (a b : Abi) : Prop where
  clauses : ∀ c, c ∈ a.ricardianClauses ↔ c ∈ b.ricardianClauses
  versions : a.version.number ≥ 11 ∧ b.version.number ≥ 11
  first : ShowsFirst a.variants b.variants ∨
    (∀ v ∈ a.variants, Known v b.variants ∨ ∀ w ∈ b.variants, v.name ≠ w.name) ∧
      ShowsFirst b.variants a.variants

/-- What the search loops see of the ABIs is enough to tell whether they differ. -/
structure Visible (a b : Abi) : Prop where
  /-- A struct without fields is never found. -/
  noEmptyStruct : (∀ s, s ∈ a.structs ↔ s ∈ b.structs) → ∀ s ∈ a.structs, s.fields ≠ []
  /-- The fields behind the first are not looked at. -/
  structs : (¬ ∀ s, s ∈ a.structs ↔ s ∈ b.structs) →
    Unseen a.structs b.structs ∨ Unseen b.structs a.structs
  /-- Of a table, the name and the type are looked at. -/
  tables : (¬ ∀ t, t ∈ a.tables ↔ t ∈ b.tables) →
    UnseenTable a.tables b.tables ∨ UnseenTable b.tables a.tables
  variants : (¬ ∀ v, v ∈ a.variants ↔ v ∈ b.variants) → ShowsVariants a b

section whole

variable {a b : Abi}

lemma diffVersion_shows : (diffVersion a b).reports ≠ [] ↔ a.version ≠ b.version := by
  unfold diffVersion
  by_cases h : a.version = b.version
  · rw [if_neg (not_not.mpr (congrArg _ h))]
    simp [Output.nothing, h]
  · rw [if_pos fun hn => h (AbiVersion.number_inj hn)]
    simp [Output.print, h]

lemma diffVersion_error : (diffVersion a b).error = none := by
  unfold diffVersion
  split <;> rfl

lemma diffClauses_reports (ha : a.WellFormed) (hb : b.WellFormed) :
    (diffWith findClauses a b).reports ≠ [] ↔ Differs a b .clause := by
  have hfirst := findClauses_reports (a := a) (d := '<') hb
  have hsecond := findClauses_reports (a := b) (d := '>') ha
  have herror := findClauses_error_iff (a := a) (d := '<') hb
  show _ ↔ ¬ ∀ c, c ∈ a.ricardianClauses ↔ c ∈ b.ricardianClauses
  unfold diffWith
  rw [differ_iff]
  cases hc : (findClauses a b '<').error with
  | none =>
    rw [hc] at herror
    rw [Output.andThen_reports hc, ← hfirst, ← hsecond]
    simp only [ne_eq, List.append_eq_nil_iff]
    tauto
  | some e =>
    rw [hc] at herror
    have hmore : ∃ c ∈ a.ricardianClauses, c ∉ b.ricardianClauses := by
      by_contra hno
      push Not at hno
      exact absurd (herror.mpr hno) (Option.some_ne_none e)
    unfold Output.andThen
    simp only [hc]
    exact ⟨fun _ => .inl hmore, fun _ => hfirst.mpr hmore⟩

lemma diffClauses_error_iff (ha : a.WellFormed) (hb : b.WellFormed) :
    (diffWith findClauses a b).error = none ↔
      ∀ c, c ∈ a.ricardianClauses ↔ c ∈ b.ricardianClauses := by
  have herror := findClauses_error_iff (a := a) (d := '<') hb
  have herror' := findClauses_error_iff (a := b) (d := '>') ha
  unfold diffWith
  cases hc : (findClauses a b '<').error with
  | none =>
    rw [hc] at herror
    rw [Output.andThen_error hc, herror']
    exact ⟨fun h c => ⟨herror.mp rfl c, h c⟩, fun h c hcb => (h c).mpr hcb⟩
  | some e =>
    rw [hc] at herror
    unfold Output.andThen
    simp only [hc]
    exact ⟨fun h => absurd h (Option.some_ne_none e), fun h =>
      absurd (herror.mpr fun c hca => (h c).mp hca) (Option.some_ne_none e)⟩

lemma diffVariants_reports (ha : a.WellFormed) (hb : b.WellFormed) :
    (diffVariants a b).reports ≠ [] ↔ (a.version.number ≥ 11 ∧ b.version.number ≥ 11) ∧
      (ShowsFirst a.variants b.variants ∨
        (∀ v ∈ a.variants, Known v b.variants ∨ ∀ w ∈ b.variants, v.name ≠ w.name) ∧
          ShowsFirst b.variants a.variants) := by
  have hfirst := findVariants_reports (a := a) (d := '<') hb
  have hsecond := findVariants_reports (a := b) (d := '>') ha
  have herror := findVariants_error_iff (a := a) (d := '<') hb
  unfold diffVariants
  by_cases hver : a.version.number ≥ 11 ∧ b.version.number ≥ 11
  · rw [if_pos hver, and_iff_right hver, ← hfirst, ← hsecond, ← herror]
    unfold diffWith
    cases hc : (findVariants a b '<').error with
    | none =>
      rw [Output.andThen_reports hc]
      simp only [ne_eq, List.append_eq_nil_iff]
      tauto
    | some e =>
      unfold Output.andThen
      simp [hc]
  · rw [if_neg hver]
    simp [Output.nothing, hver]

/-- Variants that are the same are not reported. -/
lemma not_showsFirst (h : ∀ v, v ∈ a.variants ↔ v ∈ b.variants) :
    ¬ ShowsFirst a.variants b.variants := by
  rintro ⟨pre, v, post, hsplit, -, hno⟩
  have hv : v ∈ a.variants := by
    rw [hsplit]
    exact List.mem_append_right _ List.mem_cons_self
  exact hno v ((h v).mp hv) rfl

/-- The parts of the output. -/
lemma diff_shows (sec : DiffSection) : (diff a b).Shows sec ↔
    (.version = sec ∧ (diffVersion a b).reports ≠ []) ∨
    (.struct = sec ∧ (diffWith findStructs a b).reports ≠ []) ∨
    (.type = sec ∧ (diffWith findTypes a b).reports ≠ []) ∨
    (.action = sec ∧ (diffWith findActions a b).reports ≠ []) ∨
    (.table = sec ∧ (diffWith findTables a b).reports ≠ []) ∨
    (.clause = sec ∧ (diffWith findClauses a b).reports ≠ []) ∨
    (diffWith findClauses a b).error = none ∧ .variant = sec ∧ (diffVariants a b).reports ≠ [] := by
  have hversion : ∀ r ∈ (diffVersion a b).reports, r.sectionOf = .version := by
    unfold diffVersion
    split
    · exact print_sectionOf rfl
    · exact fun r hr => absurd hr List.not_mem_nil
  have hvariants : ∀ r ∈ (diffVariants a b).reports, r.sectionOf = .variant := by
    unfold diffVariants
    split
    · exact diffWith_sectionOf fun _ _ _ => findLoop_sectionOf fun _ => print_sectionOf rfl
    · exact fun r hr => absurd hr List.not_mem_nil
  have hstructs : ∀ r ∈ (diffWith findStructs a b).reports, r.sectionOf = .struct :=
    diffWith_sectionOf fun _ _ _ => findLoop_sectionOf fun _ => print_sectionOf rfl
  have htypes : ∀ r ∈ (diffWith findTypes a b).reports, r.sectionOf = .type :=
    diffWith_sectionOf fun _ _ _ => findLoop_sectionOf fun _ => print_sectionOf rfl
  have hactions : ∀ r ∈ (diffWith findActions a b).reports, r.sectionOf = .action :=
    diffWith_sectionOf fun _ _ _ => findLoop_sectionOf fun _ => print_sectionOf rfl
  have htables : ∀ r ∈ (diffWith findTables a b).reports, r.sectionOf = .table :=
    diffWith_sectionOf fun _ _ _ => findLoop_sectionOf fun _ => print_sectionOf rfl
  have hclauses : ∀ r ∈ (diffWith findClauses a b).reports, r.sectionOf = .clause :=
    diffWith_sectionOf fun _ _ _ => findLoop_sectionOf fun _ => print_sectionOf (r := .clause _) rfl
  unfold diff
  rw [Output.shows_andThen diffVersion_error,
    Output.shows_andThen (diffWith_error fun _ _ _ => findStructs_error),
    Output.shows_andThen (diffWith_error fun _ _ _ => findTypes_error),
    Output.shows_andThen (diffWith_error fun _ _ _ => findActions_error),
    Output.shows_andThen (diffWith_error fun _ _ _ => findTables_error), Output.shows_andThen_iff,
    Output.shows_iff hversion, Output.shows_iff hstructs, Output.shows_iff htypes,
    Output.shows_iff hactions, Output.shows_iff htables, Output.shows_iff hclauses,
    Output.shows_iff hvariants]

end whole

section sections

variable {a b : Abi} (ha : a.WellFormed) (hb : b.WellFormed)
include ha hb

lemma shows_struct_iff : (diff a b).Shows .struct ↔
    Unseen a.structs b.structs ∨ Unseen b.structs a.structs := by
  have hreports : (diffWith findStructs a b).reports ≠ [] ↔ _ :=
    diffWith_reports fun _ _ _ => findStructs_error
  rw [diff_shows, ← findStructs_reports hb, ← findStructs_reports ha, ← hreports]
  simp

lemma shows_type_iff : (diff a b).Shows .type ↔ Differs a b .type := by
  have hreports : (diffWith findTypes a b).reports ≠ [] ↔ _ :=
    diffWith_reports fun _ _ _ => findTypes_error
  show _ ↔ ¬ ∀ t, t ∈ a.types ↔ t ∈ b.types
  rw [diff_shows, differ_iff, ← findTypes_reports hb, ← findTypes_reports ha, ← hreports]
  simp

lemma shows_action_iff : (diff a b).Shows .action ↔ Differs a b .action := by
  have hreports : (diffWith findActions a b).reports ≠ [] ↔ _ :=
    diffWith_reports fun _ _ _ => findActions_error
  show _ ↔ ¬ ∀ x, x ∈ a.actions ↔ x ∈ b.actions
  rw [diff_shows, differ_iff, ← findActions_reports hb, ← findActions_reports ha, ← hreports]
  simp

lemma shows_table_iff : (diff a b).Shows .table ↔
    UnseenTable a.tables b.tables ∨ UnseenTable b.tables a.tables := by
  have hreports : (diffWith findTables a b).reports ≠ [] ↔ _ :=
    diffWith_reports fun _ _ _ => findTables_error
  rw [diff_shows, ← findTables_reports hb, ← findTables_reports ha, ← hreports]
  simp

lemma shows_clause_iff : (diff a b).Shows .clause ↔ Differs a b .clause := by
  rw [diff_shows, ← diffClauses_reports ha hb]
  simp

lemma shows_variant_iff : (diff a b).Shows .variant ↔ ShowsVariants a b := by
  rw [diff_shows, diffVariants_reports ha hb, diffClauses_error_iff ha hb]
  simp only [reduceCtorEq, false_and, false_or, true_and]
  exact ⟨fun ⟨hclauses, hversions, hfirst⟩ => ⟨hclauses, hversions, hfirst⟩,
    fun ⟨hclauses, hversions, hfirst⟩ => ⟨hclauses, hversions, hfirst⟩⟩

end sections

lemma not_unseen {ss ts : List AbiStruct} (hsame : ∀ s ∈ ss, s ∈ ts) (hne : ∀ s ∈ ss, s.fields ≠ []) :
    ¬ Unseen ss ts := fun ⟨s, hs, hno⟩ => hno s (hsame s hs) ⟨rfl, rfl, rfl, rfl, hne s hs⟩

lemma not_unseenTable {ts us : List AbiTable} (hsame : ∀ t ∈ ts, t ∈ us) : ¬ UnseenTable ts us :=
  fun ⟨t, ht, hno⟩ => hno t (hsame t ht) ⟨rfl, rfl⟩

/-- A section is reported exactly when it differs, as far as the differences are visible to the
search loops. -/
theorem diff_shows_iff {a b : Abi} (ha : a.WellFormed) (hb : b.WellFormed) :
    (∀ sec, (diff a b).Shows sec ↔ Differs a b sec) ↔ Visible a b := by
  constructor
  · intro h
    have hstruct := (shows_struct_iff ha hb).symm.trans (h .struct)
    have htable := (shows_table_iff ha hb).symm.trans (h .table)
    have hvariant := (shows_variant_iff ha hb).symm.trans (h .variant)
    refine ⟨fun hsame s hs hempty => ?_, hstruct.mpr, htable.mpr, hvariant.mpr⟩
    -- the struct without fields would be reported
    exact hstruct.mp (.inl ⟨s, hs, fun t _ hlooks => hlooks.2.2.2.2 hempty⟩) hsame
  · intro hv sec
    cases sec with
    | version =>
      rw [diff_shows, diffVersion_shows]
      simp [Differs]
    | struct =>
      rw [shows_struct_iff ha hb]
      refine ⟨fun hunseen hsame => ?_, hv.structs⟩
      have hne := hv.noEmptyStruct hsame
      rcases hunseen with hunseen | hunseen
      · exact not_unseen (fun s hs => (hsame s).mp hs) hne hunseen
      · exact not_unseen (fun s hs => (hsame s).mpr hs) (fun s hs => hne s ((hsame s).mpr hs)) hunseen
    | type => exact shows_type_iff ha hb
    | action => exact shows_action_iff ha hb
    | table =>
      rw [shows_table_iff ha hb]
      refine ⟨fun hunseen hsame => ?_, hv.tables⟩
      rcases hunseen with hunseen | hunseen
      · exact not_unseenTable (fun t ht => (hsame t).mp ht) hunseen
      · exact not_unseenTable (fun t ht => (hsame t).mpr ht) hunseen
    | clause => exact shows_clause_iff ha hb
    | variant =>
      rw [shows_variant_iff ha hb]
      refine ⟨fun hshows hsame => ?_, hv.variants⟩
      rcases hshows.first with hfirst | ⟨-, hfirst⟩
      · exact not_showsFirst hsame hfirst
      · exact not_showsFirst (fun v => (hsame v).symm) hfirst

/-- An ABI with one action, whose struct has the given fields. -/
def actionAbi (fields : List AbiField) : Abi where
  version := .initial
  types := []
  structs := [⟨"ping", "", fields⟩]
  actions := [⟨"ping", "ping", ""⟩]
  tables := []
  ricardianClauses := []
  variants := []

lemma actionAbi_wellFormed (fields : List AbiField) : (actionAbi fields).WellFormed :=
  ⟨List.nodup_nil, List.nodup_singleton _, List.nodup_singleton _, List.nodup_nil, List.nodup_nil,
    List.nodup_nil⟩

theorem diff_shows_iff_action :
    (∀ sec, (diff (actionAbi [⟨"from", "name"⟩]) (actionAbi [⟨"from", "string"⟩])).Shows sec ↔
      Differs (actionAbi [⟨"from", "name"⟩]) (actionAbi [⟨"from", "string"⟩]) sec) ↔
    Visible (actionAbi [⟨"from", "name"⟩]) (actionAbi [⟨"from", "string"⟩]) :=
  diff_shows_iff (actionAbi_wellFormed _) (actionAbi_wellFormed _)

/-- The second field of the struct changes, and nothing is reported. -/
theorem exists_unreported : ∃ a b, Abi.WellFormed a ∧ Abi.WellFormed b ∧ diff a b = .nothing ∧
    ¬ ∀ sec, (diff a b).Shows sec ↔ Differs a b sec := by
  have hnothing : diff (actionAbi [⟨"from", "name"⟩, ⟨"memo", "string"⟩])
      (actionAbi [⟨"from", "name"⟩, ⟨"memo", "bytes"⟩]) = .nothing := by decide
  refine ⟨_, _, actionAbi_wellFormed _, actionAbi_wellFormed _, hnothing, fun h => ?_⟩
  have hdiffers : Differs (actionAbi [⟨"from", "name"⟩, ⟨"memo", "string"⟩])
      (actionAbi [⟨"from", "name"⟩, ⟨"memo", "bytes"⟩]) .struct := by
    intro hsame
    have hmem := (hsame ⟨"ping", "", [⟨"from", "name"⟩, ⟨"memo", "string"⟩]⟩).mp List.mem_cons_self
    exact absurd (List.mem_singleton.mp hmem) (by decide)
  obtain ⟨r, hr, -⟩ := (h .struct).mpr hdiffers
  rw [hnothing] at hr
  exact absurd hr List.not_mem_nil

end UosioCdt.Tools
