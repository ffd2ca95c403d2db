import Mathlib.Data.List.TakeWhile
import UosioCdt.Tools.Ricardian

/-!
# What the scanner reads

`check` compares a token with a text from left to right. Where it meets whitespace in front of the
`n`-th character of the token, it goes behind the whitespace and then `n` characters further. So it
skips whitespace in front of a token, but in the middle of one it leaves a gap: it reads a token that
is not there, or it goes behind the end.

A text is what is left of the source, without the NUL.
-/

namespace UosioCdt.Tools.Ricardian

def AllWs (ws : List Char) : Prop := ∀ c ∈ ws, isWs c = true

def startsWs : List Char → Bool
  | [] => false
  | c :: _ => isWs c

/-! ## One character -/

/-- From `s` the scanner compares the character at `s'`, `n` characters behind the start of the token.
Whether there is a gap. -/
inductive Lands (n : ℕ) : (s s' : List Char) → (gap : Bool) → Prop where
  | here {s : List Char} : startsWs s = false → Lands n s s false
  | skip {ws junk s : List Char} : ws ≠ [] → AllWs ws → startsWs (junk ++ s) = false →
    junk.length = n → Lands n (ws ++ (junk ++ s)) s (decide (n ≠ 0))

/-- The scanner goes behind the end. -/
def Passes (n : ℕ) (s : List Char) : Prop :=
  ∃ ws tail, s = ws ++ tail ∧ ws ≠ [] ∧ AllWs ws ∧ startsWs tail = false ∧ tail.length < n

/-- Where the scanner goes, unless it goes behind the end. -/
def land (n : ℕ) (s : List Char) : Option (List Char × Bool) :=
  if startsWs s then
    if (s.dropWhile isWs).length < n then none
    else some ((s.dropWhile isWs).drop n, decide (n ≠ 0))
  else some (s, false)

lemma dropWhile_of_startsWs {s : List Char} (h : startsWs s = false) : s.dropWhile isWs = s := by
  cases s with
  | nil => rfl
  | cons c s => exact List.dropWhile_cons_of_neg (by rw [show isWs c = false from h]; decide)

lemma startsWs_dropWhile (s : List Char) : startsWs (s.dropWhile isWs) = false := by
  induction s with
  | nil => rfl
  | cons c s ih =>
    cases hc : isWs c with
    | true => rwa [List.dropWhile_cons_of_pos hc]
    | false =>
      rw [List.dropWhile_cons_of_neg (by rw [hc]; decide)]
      exact hc

lemma startsWs_append {ws s : List Char} (hne : ws ≠ []) (hws : AllWs ws) :
    startsWs (ws ++ s) = true := by
  cases ws with
  | nil => exact absurd rfl hne
  | cons c ws => exact hws c List.mem_cons_self

lemma dropWhile_append {ws s : List Char} (hws : AllWs ws) (hs : startsWs s = false) :
    (ws ++ s).dropWhile isWs = s := by
  rw [List.dropWhile_append_of_pos hws, dropWhile_of_startsWs hs]

/-- The whitespace at the beginning, and what is behind it. -/
lemma exists_ws (s : List Char) : ∃ ws, s = ws ++ s.dropWhile isWs ∧ AllWs ws ∧
    (startsWs s = true → ws ≠ []) := by
  refine ⟨s.takeWhile isWs, List.takeWhile_append_dropWhile.symm,
    fun c hc => List.mem_takeWhile_imp hc, fun hs hnil => ?_⟩
  have heq : s.takeWhile isWs ++ s.dropWhile isWs = s := List.takeWhile_append_dropWhile
  rw [hnil, List.nil_append] at heq
  have hfalse := startsWs_dropWhile s
  rw [heq, hs] at hfalse
  cases hfalse

lemma lands_iff {n : ℕ} {s s' : List Char} {gap : Bool} :
    Lands n s s' gap ↔ land n s = some (s', gap) := by
  constructor
  · intro h
    cases h with
    | here hs => rw [land, if_neg (by rw [hs]; decide)]
    | @skip ws junk _ hne hws hs hlen =>
      have hle : ¬ (junk ++ s').length < n := by
        rw [List.length_append]
        omega
      rw [land, if_pos (startsWs_append hne hws), dropWhile_append hws hs, if_neg hle,
        List.drop_left' hlen]
  · intro h
    unfold land at h
    split at h
    · rename_i hs
      obtain ⟨ws, heq, hws, hne⟩ := exists_ws s
      split at h
      · cases h
      · rename_i hle
        cases h
        have hskip := @Lands.skip n ws ((s.dropWhile isWs).take n) ((s.dropWhile isWs).drop n)
          (hne hs) hws (by rw [List.take_append_drop, startsWs_dropWhile])
          (List.length_take_of_le (Nat.not_lt.mp hle))
        rwa [List.take_append_drop, ← heq] at hskip
    · rename_i hs
      cases h
      exact .here (Bool.eq_false_iff.mpr hs)

lemma passes_iff {n : ℕ} {s : List Char} : Passes n s ↔ land n s = none := by
  constructor
  · rintro ⟨ws, tail, rfl, hne, hws, hs, hlt⟩
    rw [land, if_pos (startsWs_append hne hws), dropWhile_append hws hs, if_pos hlt]
  · intro h
    unfold land at h
    split at h
    · rename_i hs
      obtain ⟨ws, heq, hws, hne⟩ := exists_ws s
      split at h
      · rename_i hlt
        exact ⟨ws, _, heq, hne hs, hws, startsWs_dropWhile s, hlt⟩
      · cases h
    · cases h

/-! ## Tokens -/

/-- The scanner reads what is left of a token at `s`, `n` characters behind its start, and goes on at
`rest`. Whether it leaves gaps. -/
inductive Spells : (sub : List Char) → (n : ℕ) → (s : List Char) → (gap : Bool) →
    (rest : List Char) → Prop where
  | nil {n : ℕ} {s : List Char} : Spells [] n s false s
  | cons {c : Char} {sub s s' rest : List Char} {n : ℕ} {gap gap' : Bool} :
    Lands n s (c :: s') gap → Spells sub (n + (s.length - s'.length)) s' gap' rest →
      Spells (c :: sub) n s (gap || gap') rest

/-- The scanner goes behind the end when it reads what is left of a token. -/
inductive Leaves : (sub : List Char) → (n : ℕ) → (s : List Char) → Prop where
  | passes {c : Char} {sub s : List Char} {n : ℕ} : Passes n s → Leaves (c :: sub) n s
  /-- The token goes on with a NUL, as the source does. -/
  | nul {sub s : List Char} {n : ℕ} {gap : Bool} : Lands n s [] gap → Leaves ('\x00' :: sub) n s
  | cons {c : Char} {sub s s' : List Char} {n : ℕ} {gap : Bool} :
    Lands n s (c :: s') gap → Leaves sub (n + (s.length - s'.length)) s' → Leaves (c :: sub) n s

/-- The scanner reads the tokens and the whitespace behind each one. -/
inductive SpellsAll : List (List Char) → (s : List Char) → (gap : Bool) → (rest : List Char) →
    Prop where
  | nil {s : List Char} : SpellsAll [] s false s
  | cons {tok s s' rest : List Char} {toks : List (List Char)} {gap gap' : Bool} :
    Spells tok 0 s gap s' → SpellsAll toks (s'.dropWhile isWs) gap' rest →
      SpellsAll (tok :: toks) s (gap || gap') rest

/-- The scanner goes behind the end when it reads the tokens. -/
inductive LeavesAll : List (List Char) → (s : List Char) → Prop where
  | here {tok s : List Char} {toks : List (List Char)} : Leaves tok 0 s → LeavesAll (tok :: toks) s
  | later {tok s s' : List Char} {toks : List (List Char)} {gap : Bool} :
    Spells tok 0 s gap s' → LeavesAll toks (s'.dropWhile isWs) → LeavesAll (tok :: toks) s

/-- How an attempt ends. -/
inductive Scan where
  | reads (gap : Bool) (rest : List Char)
  | differs
  | leaves

/-- A gap in front of what follows. -/
def Scan.also (gap : Bool) : Scan → Scan
  | .reads gap' rest => .reads (gap || gap') rest
  | .differs => .differs
  | .leaves => .leaves

def scan : (sub : List Char) → (n : ℕ) → (s : List Char) → Scan
  | [], _, s => .reads false s
  | c :: sub, n, s =>
    match land n s with
    | none => .leaves
    | some ([], _) => if c = '\x00' then .leaves else .differs
    | some (d :: s', gap) =>
      if c = d then (scan sub (n + (s.length - s'.length)) s').also gap else .differs

def scanAll : List (List Char) → (s : List Char) → Scan
  | [], s => .reads false s
  | tok :: toks, s =>
    match scan tok 0 s with
    | .reads gap s' => (scanAll toks (s'.dropWhile isWs)).also gap
    | .differs => .differs
    | .leaves => .leaves

/-- What holds of an attempt by its end. -/
def Scan.Ends (reads : List Char → Prop) (differs leaves : Prop) : Scan → Prop
  | .reads _ rest => reads rest
  | .differs => differs
  | .leaves => leaves

lemma Scan.Ends.also {r : Scan} {gap : Bool} {reads : List Char → Prop} {differs leaves : Prop}
    (h : r.Ends reads differs leaves) : (r.also gap).Ends reads differs leaves := by
  cases r with
  | reads gap' rest => exact h
  | differs => exact h
  | leaves => exact h

lemma Scan.also_eq_reads {r : Scan} {gap g : Bool} {rest : List Char}
    (h : r.also gap = .reads g rest) : ∃ g', r = .reads g' rest ∧ g = (gap || g') := by
  cases r with
  | reads g' rest' =>
    cases h
    exact ⟨g', rfl, rfl⟩
  | differs => cases h
  | leaves => cases h

lemma Scan.also_eq_leaves {r : Scan} {gap : Bool} (h : r.also gap = .leaves) : r = .leaves := by
  cases r with
  | reads g' rest' => cases h
  | differs => cases h
  | leaves => rfl

lemma scan_eq_reads {sub s rest : List Char} {n : ℕ} {gap : Bool} :
    scan sub n s = .reads gap rest ↔ Spells sub n s gap rest := by
  constructor
  · intro h
    induction sub generalizing n s gap with
    | nil =>
      cases h
      exact .nil
    | cons c sub ih =>
      unfold scan at h
      split at h
      · cases h
      · split at h <;> cases h
      · rename_i d s' gap₁ hland
        split at h
        · rename_i hcd
          subst hcd
          obtain ⟨gap₂, hscan, rfl⟩ := Scan.also_eq_reads h
          exact .cons (lands_iff.mpr hland) (ih hscan)
        · cases h
  · intro h
    induction h with
    | nil => rfl
    | @cons c sub s s' rest n gap₁ gap₂ hland _ ih =>
      rw [scan, lands_iff.mp hland]
      simp only [if_pos, ih]
      rfl

lemma scan_eq_leaves {sub s : List Char} {n : ℕ} : scan sub n s = .leaves ↔ Leaves sub n s := by
  constructor
  · intro h
    induction sub generalizing n s with
    | nil => cases h
    | cons c sub ih =>
      unfold scan at h
      split at h
      · rename_i hland
        exact .passes (passes_iff.mpr hland)
      · rename_i gap hland
        split at h
        · rename_i hc
          subst hc
          exact .nul (lands_iff.mpr hland)
        · cases h
      · rename_i d s' gap hland
        split at h
        · rename_i hcd
          subst hcd
          exact .cons (lands_iff.mpr hland) (ih (Scan.also_eq_leaves h))
        · cases h
  · intro h
    induction h with
    | passes h => rw [scan, passes_iff.mp h]
    | nul hland =>
      rw [scan, lands_iff.mp hland]
      rfl
    | @cons c sub s s' n gap hland _ ih =>
      rw [scan, lands_iff.mp hland]
      simp only [if_pos, ih]
      rfl

lemma scanAll_eq_reads {toks : List (List Char)} {s rest : List Char} {gap : Bool} :
    scanAll toks s = .reads gap rest ↔ SpellsAll toks s gap rest := by
  constructor
  · intro h
    induction toks generalizing s gap with
    | nil =>
      cases h
      exact .nil
    | cons tok toks ih =>
      unfold scanAll at h
      split at h
      · rename_i gap₁ s' hscan
        obtain ⟨gap₂, hall, rfl⟩ := Scan.also_eq_reads h
        exact .cons (scan_eq_reads.mp hscan) (ih hall)
      · cases h
      · cases h
  · intro h
    induction h with
    | nil => rfl
    | cons hspells _ ih =>
      rw [scanAll, scan_eq_reads.mpr hspells]
      simp only [ih]
      rfl

lemma scanAll_eq_leaves {toks : List (List Char)} {s : List Char} :
    scanAll toks s = .leaves ↔ LeavesAll toks s := by
  constructor
  · intro h
    induction toks generalizing s with
    | nil => cases h
    | cons tok toks ih =>
      unfold scanAll at h
      split at h
      · rename_i gap₁ s' hscan
        exact .later (scan_eq_reads.mp hscan) (ih (Scan.also_eq_leaves h))
      · cases h
      · rename_i hscan
        exact .here (scan_eq_leaves.mp hscan)
  · intro h
    induction h with
    | here h => rw [scanAll, scan_eq_leaves.mpr h]
    | later hspells _ ih =>
      rw [scanAll, scan_eq_reads.mpr hspells]
      simp only [ih]
      rfl

/-! ## Tokens that are there -/

/-- The tokens stand at `s` with only whitespace in front of them and between them, and `rest` is what
follows them and the whitespace behind them. -/
def TokensAt : List (List Char) → (s rest : List Char) → Prop
  | [], s, rest => ∃ ws, AllWs ws ∧ s = ws ++ rest ∧ startsWs rest = false
  | tok :: toks, s, rest => ∃ ws s', AllWs ws ∧ s = ws ++ (tok ++ s') ∧ TokensAt toks s' rest

/-- No character of the token is whitespace. -/
def Solid (tok : List Char) : Prop := ∀ c ∈ tok, isWs c = false

instance (tok : List Char) : Decidable (Solid tok) :=
  inferInstanceAs (Decidable (∀ c ∈ tok, isWs c = false))

lemma allWs_nil : AllWs [] := fun _ hc => by cases hc

lemma AllWs.append {ws ws' : List Char} (h : AllWs ws) (h' : AllWs ws') : AllWs (ws ++ ws') := by
  intro c hc
  obtain hc | hc := List.mem_append.mp hc
  · exact h c hc
  · exact h' c hc

lemma TokensAt.append {toks : List (List Char)} {ws s rest : List Char} (hws : AllWs ws)
    (h : TokensAt toks s rest) : TokensAt toks (ws ++ s) rest := by
  cases toks with
  | nil =>
    obtain ⟨ws', hws', rfl, hrest⟩ := h
    exact ⟨ws ++ ws', hws.append hws', (List.append_assoc _ _ _).symm, hrest⟩
  | cons tok toks =>
    obtain ⟨ws', s', hws', rfl, hs'⟩ := h
    exact ⟨ws ++ ws', s', hws.append hws', (List.append_assoc _ _ _).symm, hs'⟩

lemma TokensAt.of_dropWhile {toks : List (List Char)} {s rest : List Char}
    (h : TokensAt toks (s.dropWhile isWs) rest) : TokensAt toks s rest := by
  obtain ⟨ws, heq, hws, -⟩ := exists_ws s
  rw [heq]
  exact h.append hws

/-! ### Without gaps -/

lemma Lands.of_no_gap {n : ℕ} {s s' : List Char} (h : Lands n s s' false) :
    ∃ ws, s = ws ++ s' ∧ AllWs ws ∧ startsWs s' = false ∧ (n ≠ 0 → ws = []) := by
  generalize hgap : false = gap at h
  cases h with
  | here hs => exact ⟨[], rfl, allWs_nil, hs, fun _ => rfl⟩
  | @skip ws junk s' hne hws hs hlen =>
    obtain rfl : n = 0 := by
      by_contra hn
      rw [decide_eq_true hn] at hgap
      cases hgap
    obtain rfl := List.eq_nil_of_length_eq_zero hlen
    exact ⟨ws, rfl, hws, hs, fun h => absurd rfl h⟩

lemma Spells.of_no_gap {sub s rest : List Char} {n : ℕ} (h : Spells sub n s false rest) :
    ∃ ws, s = ws ++ (sub ++ rest) ∧ AllWs ws ∧ Solid sub ∧ (n ≠ 0 ∨ sub = [] → ws = []) := by
  induction sub generalizing n s with
  | nil =>
    cases h
    exact ⟨[], rfl, allWs_nil, (fun _ hc => by cases hc), fun _ => rfl⟩
  | cons c sub ih =>
    generalize hgap : false = gap at h
    cases h with
    | @cons _ _ _ s' _ _ gap gap' hland hrest =>
      obtain ⟨rfl, rfl⟩ := Bool.or_eq_false_iff.mp hgap.symm
      obtain ⟨ws, rfl, hws, hc, hnil⟩ := hland.of_no_gap
      have hpos : n + ((ws ++ c :: s').length - s'.length) ≠ 0 := by
        rw [List.length_append, List.length_cons]
        omega
      obtain ⟨ws', rfl, -, hsub, hnil'⟩ := ih hrest
      obtain rfl := hnil' (.inl hpos)
      refine ⟨ws, rfl, hws, ?_, ?_⟩
      · intro d hd
        obtain rfl | hd := List.mem_cons.mp hd
        · exact hc
        · exact hsub d hd
      · rintro (hn | hsub)
        · exact hnil hn
        · cases hsub

/-- Without gaps the tokens are there, and none of them has whitespace. -/
lemma SpellsAll.of_no_gap {toks : List (List Char)} {s rest : List Char}
    (h : SpellsAll toks s false rest) (hs : toks = [] → startsWs s = false) :
    TokensAt toks s rest ∧ ∀ tok ∈ toks, Solid tok := by
  induction toks generalizing s with
  | nil =>
    cases h
    exact ⟨⟨[], allWs_nil, rfl, hs rfl⟩, fun _ ht => by cases ht⟩
  | cons tok toks ih =>
    generalize hgap : false = gap at h
    cases h with
    | @cons _ _ s' _ _ gap gap' htok hrest =>
      obtain ⟨rfl, rfl⟩ := Bool.or_eq_false_iff.mp hgap.symm
      obtain ⟨ws, rfl, hws, hsolid, -⟩ := htok.of_no_gap
      obtain ⟨hall, hsolids⟩ := ih hrest fun _ => startsWs_dropWhile s'
      refine ⟨⟨ws, s', hws, rfl, hall.of_dropWhile⟩, ?_⟩
      intro t ht
      obtain rfl | ht := List.mem_cons.mp ht
      · exact hsolid
      · exact hsolids t ht

/-- What is left of a token that is there. -/
lemma spells_solid {sub rest : List Char} {n : ℕ} (hsub : Solid sub) :
    Spells sub n (sub ++ rest) false rest := by
  induction sub generalizing n with
  | nil => exact .nil
  | cons c sub ih =>
    have hc : startsWs (c :: sub ++ rest) = false := hsub c List.mem_cons_self
    exact .cons (.here hc) (ih fun d hd => hsub d (List.mem_cons_of_mem c hd))

lemma spells_token {tok ws rest : List Char} (htok : Solid tok) (hne : tok ≠ []) (hws : AllWs ws) :
    Spells tok 0 (ws ++ (tok ++ rest)) false rest := by
  by_cases hnil : ws = []
  · subst hnil
    exact spells_solid htok
  · cases tok with
    | nil => exact absurd rfl hne
    | cons c tok =>
      have hc : startsWs (c :: tok ++ rest) = false := htok c List.mem_cons_self
      exact .cons (@Lands.skip 0 ws [] (c :: tok ++ rest) hnil hws hc rfl)
        (spells_solid fun d hd => htok d (List.mem_cons_of_mem c hd))

lemma TokensAt.dropWhile {toks : List (List Char)} {s rest : List Char}
    (h : TokensAt toks s rest) (htoks : ∀ tok ∈ toks, Solid tok ∧ tok ≠ []) :
    TokensAt toks (s.dropWhile isWs) rest := by
  cases toks with
  | nil =>
    obtain ⟨ws, hws, rfl, hrest⟩ := h
    rw [dropWhile_append hws hrest]
    exact ⟨[], allWs_nil, rfl, hrest⟩
  | cons tok toks =>
    obtain ⟨ws, s', hws, rfl, hall⟩ := h
    obtain ⟨hsolid, hne⟩ := htoks tok List.mem_cons_self
    have hstart : startsWs (tok ++ s') = false := by
      cases tok with
      | nil => exact absurd rfl hne
      | cons c tok => exact hsolid c List.mem_cons_self
    rw [dropWhile_append hws hstart]
    exact ⟨[], s', allWs_nil, rfl, hall⟩

/-- Tokens that are there are read. -/
lemma TokensAt.spellsAll {toks : List (List Char)} {s rest : List Char} (h : TokensAt toks s rest)
    (htoks : ∀ tok ∈ toks, Solid tok ∧ tok ≠ []) (hne : toks = [] → startsWs s = false) :
    SpellsAll toks s false rest := by
  induction toks generalizing s with
  | nil =>
    obtain ⟨ws, hws, rfl, hrest⟩ := h
    have heq := dropWhile_append hws hrest
    rw [dropWhile_of_startsWs (hne rfl)] at heq
    rw [heq]
    exact .nil
  | cons tok toks ih =>
    obtain ⟨ws, s', hws, rfl, hall⟩ := h
    obtain ⟨hsolid, htok⟩ := htoks tok List.mem_cons_self
    have htoks' := fun t ht => htoks t (List.mem_cons_of_mem tok ht)
    exact .cons (spells_token hsolid htok hws)
      (ih (hall.dropWhile htoks') htoks' fun _ => startsWs_dropWhile s')

/-! ### With gaps -/

/-- How many characters are not whitespace. -/
def count (s : List Char) : ℕ := s.countP fun c => !isWs c

lemma count_append (s t : List Char) : count (s ++ t) = count s + count t := List.countP_append

lemma count_ws {ws : List Char} (hws : AllWs ws) : count ws = 0 := by
  rw [count, List.countP_eq_zero]
  intro c hc
  rw [hws c hc]
  decide

/-- A gap has a character that is not whitespace. -/
lemma Lands.count_le {n : ℕ} {s s' : List Char} {gap : Bool} (h : Lands n s s' gap) :
    ∃ u, s = u ++ s' ∧ gap.toNat ≤ count u := by
  cases h with
  | here hs => exact ⟨[], rfl, Nat.zero_le _⟩
  | @skip ws junk s' hne hws hs hlen =>
    refine ⟨ws ++ junk, (List.append_assoc _ _ _).symm, ?_⟩
    cases junk with
    | nil =>
      obtain rfl : 0 = n := hlen
      exact Nat.zero_le _
    | cons c junk =>
      have hc : isWs c = false := hs
      have hpos : 1 ≤ count (c :: junk) := by
        rw [count, List.countP_cons_of_pos (by rw [hc]; rfl)]
        exact Nat.le_add_left 1 _
      rw [count_append]
      exact Nat.le_trans (Bool.toNat_le _) (Nat.le_trans hpos (Nat.le_add_left _ _))

lemma toNat_or_le (gap gap' : Bool) : (gap || gap').toNat ≤ gap.toNat + gap'.toNat := by
  cases gap <;> cases gap' <;> decide

lemma Spells.count_le {sub s rest : List Char} {n : ℕ} {gap : Bool} (h : Spells sub n s gap rest) :
    ∃ u, s = u ++ rest ∧ count sub + gap.toNat ≤ count u := by
  induction h with
  | nil => exact ⟨[], rfl, Nat.le_refl _⟩
  | @cons c sub s s' rest n gap gap' hland _ ih =>
    obtain ⟨u, rfl, hu⟩ := hland.count_le
    obtain ⟨v, rfl, hv⟩ := ih
    refine ⟨u ++ c :: v, by rw [List.append_assoc, List.cons_append], ?_⟩
    have hor := toNat_or_le gap gap'
    have hsub : count (c :: sub) = count [c] + count sub := count_append [c] sub
    have hcv : count (c :: v) = count [c] + count v := count_append [c] v
    rw [count_append, hsub, hcv]
    omega

lemma SpellsAll.count_le {toks : List (List Char)} {s rest : List Char} {gap : Bool}
    (h : SpellsAll toks s gap rest) :
    ∃ u, s = u ++ rest ∧ count toks.flatten + gap.toNat ≤ count u := by
  induction h with
  | nil => exact ⟨[], rfl, Nat.le_refl _⟩
  | @cons tok s s' rest toks gap gap' htok _ ih =>
    obtain ⟨u, rfl, hu⟩ := htok.count_le
    obtain ⟨ws, hs', -, -⟩ := exists_ws s'
    obtain ⟨v, hv, hcount⟩ := ih
    refine ⟨u ++ (ws ++ v), ?_, ?_⟩
    · rw [List.append_assoc, List.append_assoc, ← hv, ← hs']
    · have hor := toNat_or_le gap gap'
      rw [List.flatten_cons, count_append, count_append, count_append]
      omega

lemma TokensAt.count_eq {toks : List (List Char)} {s rest : List Char} (h : TokensAt toks s rest) :
    ∃ u, s = u ++ rest ∧ count u = count toks.flatten := by
  induction toks generalizing s with
  | nil =>
    obtain ⟨ws, hws, rfl, -⟩ := h
    exact ⟨ws, rfl, count_ws hws⟩
  | cons tok toks ih =>
    obtain ⟨ws, s', hws, rfl, hall⟩ := h
    obtain ⟨u, rfl, hu⟩ := ih hall
    refine ⟨ws ++ (tok ++ u), ?_, ?_⟩
    · rw [List.append_assoc, List.append_assoc]
    · rw [count_append, count_append, count_ws hws, hu, List.flatten_cons, count_append,
        Nat.zero_add]

/-- A scanner that has left a gap is not behind the tokens. -/
lemma not_tokensAt_of_gap {toks : List (List Char)} {s rest : List Char}
    (h : SpellsAll toks s true rest) : ¬ TokensAt toks s rest := by
  intro hall
  obtain ⟨u, heq, hu⟩ := h.count_le
  obtain ⟨v, heq', hv⟩ := hall.count_eq
  obtain rfl := List.append_cancel_right (heq.symm.trans heq')
  rw [hv] at hu
  exact Nat.not_succ_le_self _ hu

/-! ### The tokens of a header -/

lemma solid_headTokens {type : List Char} (h : Solid type) :
    ∀ tok ∈ headTokens type, Solid tok ∧ tok ≠ [] := by
  intro tok htok
  simp only [headTokens, List.mem_cons, List.not_mem_nil, or_false] at htok
  obtain rfl | rfl | rfl | rfl | rfl | rfl := htok
  · decide
  · decide
  · decide
  · decide
  · refine ⟨fun c hc => ?_, List.cons_ne_nil _ _⟩
    rw [List.cons_append, List.mem_cons, List.mem_append, List.mem_singleton] at hc
    obtain rfl | hc | rfl := hc
    · rfl
    · exact h c hc
    · rfl
  · decide

lemma solid_of_headTokens {type : List Char} (h : ∀ tok ∈ headTokens type, Solid tok) :
    Solid type := by
  have hquoted : Solid ('"' :: type ++ ['"']) := h _ (by simp [headTokens])
  intro c hc
  exact hquoted c (by simp [hc])

end UosioCdt.Tools.Ricardian
