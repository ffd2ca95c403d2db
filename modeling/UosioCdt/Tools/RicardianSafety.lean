import Mathlib.Data.List.Basic
import UosioCdt.Tools.RicardianTheorems

/-!
# Files that the scanner reads safely

`parse` stays inside the source, and `is_decl` finds exactly the headers, unless the file has a text
that the scanner takes for one or in which it goes behind the end (`parse_isDecl_iff`).
-/

namespace UosioCdt.Tools.Ricardian

variable {source type s : List Char} {i : ℕ}

/-- A header of the type is at `s`, or whitespace and a header. -/
def HeaderAt (type s : List Char) : Prop := ∃ rest, TokensAt (headTokens type) s rest

/-- At the index `i`, `is_decl` returns whether there is a header, and it goes behind it and the
whitespace that follows. -/
def ExactAt (source type : List Char) (i : ℕ) : Prop :=
  ∃ found j, isDecl source type i = .ok (found, j) ∧
    (found = true ↔ HeaderAt type (source.drop i)) ∧
    (found = true →
      j ≤ source.length ∧ TokensAt (headTokens type) (source.drop i) (source.drop j))

/-- The scanner leaves no gap in a header, it stays inside the source, and where there is a header,
the type has no whitespace. -/
structure ReadableHeaders (source type : List Char) : Prop where
  size : source.length < 2 ^ 31
  no_gap : ∀ s, s <:+ source → ∀ rest, ¬ SpellsAll (headTokens type) s true rest
  inside : ∀ s, s <:+ source → ¬ LeavesAll (headTokens type) s
  solid : ∀ s, s <:+ source → HeaderAt type s → Solid type

/-! ## Headers -/

/-- Where the scanner reads the tokens, `is_decl` is exact unless there is a gap. -/
lemma exactAt_of_reads {gap : Bool} {rest : List Char} (hsize : source.length < 2 ^ 31)
    (h : At source i s) (hscan : scanAll (headTokens type) s = .reads gap rest) :
    ExactAt source type i ↔ gap = false := by
  have hdecl := checkAll_spec hsize (headTokens type) h
  rw [hscan] at hdecl
  obtain ⟨k, hk, hat⟩ := hdecl
  have hspells := scanAll_eq_reads.mp hscan
  rw [ExactAt, h.2]
  constructor
  · rintro ⟨found, j, hj, -, hbehind⟩
    obtain ⟨rfl, rfl⟩ := Prod.mk.inj (Except.ok.inj (hk.symm.trans hj))
    obtain ⟨-, htokens⟩ := hbehind rfl
    rw [hat.2] at htokens
    cases gap with
    | true => exact absurd htokens (not_tokensAt_of_gap hspells)
    | false => rfl
  · rintro rfl
    have htokens := (hspells.of_no_gap fun hnil => by cases hnil).1
    refine ⟨true, k, hk, ⟨fun _ => ⟨rest, htokens⟩, fun _ => rfl⟩, fun _ => ⟨hat.1, ?_⟩⟩
    rwa [hat.2]

/-- Where it finds a difference, `is_decl` is exact unless there is a header. -/
lemma exactAt_of_differs (hsize : source.length < 2 ^ 31) (h : At source i s)
    (hscan : scanAll (headTokens type) s = .differs) :
    ExactAt source type i ↔ ¬ HeaderAt type s := by
  have hdecl := checkAll_spec hsize (headTokens type) h
  rw [hscan] at hdecl
  obtain ⟨k, hk⟩ := hdecl
  rw [ExactAt, h.2]
  constructor
  · rintro ⟨found, j, hj, hfound, -⟩ hhead
    obtain ⟨rfl, rfl⟩ := Prod.mk.inj (Except.ok.inj (hk.symm.trans hj))
    cases hfound.mpr hhead
  · intro hhead
    exact ⟨false, k, hk, ⟨(fun hfalse => by cases hfalse), fun h => absurd h hhead⟩,
      fun hfalse => by cases hfalse⟩

/-- Where it goes behind the end, `is_decl` does not return. -/
lemma not_exactAt_of_leaves (hsize : source.length < 2 ^ 31) (h : At source i s)
    (hscan : scanAll (headTokens type) s = .leaves) : ¬ ExactAt source type i := by
  have hdecl := checkAll_spec hsize (headTokens type) h
  rw [hscan] at hdecl
  obtain ⟨e, he⟩ := hdecl
  rintro ⟨found, j, hj, -⟩
  cases he.symm.trans hj

/-- The scanner finds a header of a type that has no whitespace. -/
lemma scanAll_of_tokensAt {rest : List Char} (htype : Solid type)
    (hhead : TokensAt (headTokens type) s rest) :
    scanAll (headTokens type) s = .reads false rest :=
  scanAll_eq_reads.mpr (hhead.spellsAll (solid_headTokens htype) fun hnil => by cases hnil)

/-- What the scanner does decides whether `is_decl` is exact. -/
theorem exactAt_iff (hsize : source.length < 2 ^ 31) (h : At source i s) :
    ExactAt source type i ↔ (∀ rest, ¬ SpellsAll (headTokens type) s true rest) ∧
      ¬ LeavesAll (headTokens type) s ∧ (HeaderAt type s → Solid type) := by
  simp only [← scanAll_eq_reads, ← scanAll_eq_leaves]
  cases hscan : scanAll (headTokens type) s with
  | reads gap rest =>
    rw [exactAt_of_reads hsize h hscan]
    cases gap with
    | true => exact ⟨nofun, fun hgap => absurd rfl (hgap.1 rest)⟩
    | false =>
      have hspells := scanAll_eq_reads.mp hscan
      have hsolid := solid_of_headTokens (hspells.of_no_gap fun hnil => by cases hnil).2
      exact ⟨fun _ => ⟨nofun, nofun, fun _ => hsolid⟩, fun _ => rfl⟩
  | differs =>
    rw [exactAt_of_differs hsize h hscan]
    constructor
    · intro hmiss
      exact ⟨nofun, nofun, fun hhead => absurd hhead hmiss⟩
    · rintro ⟨-, -, hsolid⟩ ⟨rest, htokens⟩
      rw [scanAll_of_tokensAt (hsolid ⟨rest, htokens⟩) htokens] at hscan
      cases hscan
  | leaves => exact ⟨fun hexact => absurd hexact (not_exactAt_of_leaves hsize h hscan),
      fun hexact => absurd rfl hexact.2.1⟩

/-- At the end of a source that is too large the index is not an `int`. -/
lemma size_of_exactAt (h : ExactAt source type source.length) : source.length < 2 ^ 31 := by
  by_contra hsize
  obtain ⟨found, j, hj, -⟩ := h
  rw [isDecl, headTokens, checkAll, check, toInt, if_neg hsize] at hj
  cases hj

theorem readableHeaders_iff :
    (∀ i ≤ source.length, ExactAt source type i) ↔ ReadableHeaders source type := by
  constructor
  · intro h
    have hsize := size_of_exactAt (h _ (Nat.le_refl _))
    have hexact : ∀ s, s <:+ source → (∀ rest, ¬ SpellsAll (headTokens type) s true rest) ∧
        ¬ LeavesAll (headTokens type) s ∧ (HeaderAt type s → Solid type) := by
      intro s hs
      obtain ⟨i, hat⟩ := exists_at hs
      exact (exactAt_iff hsize hat).mp (h i hat.1)
    exact ⟨hsize, fun s hs => (hexact s hs).1, fun s hs => (hexact s hs).2.1,
      fun s hs => (hexact s hs).2.2⟩
  · intro h i hi
    have hat : At source i (source.drop i) := ⟨hi, rfl⟩
    exact (exactAt_iff h.size hat).mpr
      ⟨h.no_gap _ hat.suffix, h.inside _ hat.suffix, h.solid _ hat.suffix⟩

/-- The scanner finds the header. -/
lemma ReadableHeaders.scan_head {rest : List Char} (h : ReadableHeaders source type)
    (hs : s <:+ source) (hhead : TokensAt (headTokens type) s rest) :
    scanAll (headTokens type) s = .reads false rest :=
  scanAll_of_tokensAt (h.solid s hs ⟨rest, hhead⟩) hhead

lemma ReadableHeaders.scan_differs (h : ReadableHeaders source type) (hs : s <:+ source)
    (hhead : ¬ HeaderAt type s) : scanAll (headTokens type) s = .differs := by
  cases hscan : scanAll (headTokens type) s with
  | reads gap rest =>
    have hspells := scanAll_eq_reads.mp hscan
    cases gap with
    | true => exact absurd hspells (h.no_gap s hs rest)
    | false => exact absurd ⟨rest, (hspells.of_no_gap fun hnil => by cases hnil).1⟩ hhead
  | differs => rfl
  | leaves => exact absurd (scanAll_eq_leaves.mp hscan) (h.inside s hs)

/-! ## Rounds -/

/-- The body is the text up to the next header, or to the end. -/
def BodyEnd (type rest body s' : List Char) : Prop :=
  rest = body ++ s' ∧ (∀ t, t <:+ body → t ≠ [] → ¬ HeaderAt type (t ++ s')) ∧
    (s' = [] ∨ HeaderAt type s')

lemma exists_bodyEnd (type rest : List Char) : ∃ body s', BodyEnd type rest body s' := by
  induction rest with
  | nil =>
    refine ⟨[], [], rfl, fun t ht hne => ?_, .inl rfl⟩
    exact absurd (List.suffix_nil.mp ht) hne
  | cons c rest ih =>
    by_cases hhead : HeaderAt type (c :: rest)
    · refine ⟨[], c :: rest, rfl, fun t ht hne => ?_, .inr hhead⟩
      exact absurd (List.suffix_nil.mp ht) hne
    · obtain ⟨body, s', rfl, hbody, hend⟩ := ih
      refine ⟨c :: body, s', rfl, fun t ht hne => ?_, hend⟩
      obtain rfl | ht := List.suffix_cons_iff.mp ht
      · exact hhead
      · exact hbody t ht hne

/-- The texts at which `parse` looks for a header: the source, and behind a header, its name and a
closing tag what is left behind the body. -/
inductive Reached (source type : List Char) : List Char → Prop where
  | start : Reached source type source
  | next {s rest name close rest' body s' : List Char} {gap : Bool} :
    Reached source type s → TokensAt (headTokens type) s rest → NameEnd rest name close →
      SpellsAll closeTokens close gap rest' → BodyEnd type rest' body s' → Reached source type s'

/-- Nor does the scanner go behind the end in a closing tag that `parse` reaches. -/
structure Readable (source type : List Char) : Prop extends ReadableHeaders source type where
  close : ∀ s rest name close, Reached source type s → TokensAt (headTokens type) s rest →
    NameEnd rest name close → ¬ LeavesAll closeTokens close

lemma SpellsAll.suffix {toks : List (List Char)} {rest : List Char} {gap : Bool}
    (h : SpellsAll toks s gap rest) : rest <:+ s := by
  obtain ⟨u, hu, -⟩ := h.count_le
  exact ⟨u, hu.symm⟩

lemma NameEnd.suffix {rest name close : List Char} (h : NameEnd rest name close) : close <:+ rest :=
  ⟨name, h.1.symm⟩

lemma BodyEnd.suffix {rest body s' : List Char} (h : BodyEnd type rest body s') : s' <:+ rest :=
  ⟨body, h.1.symm⟩

/-- A header is not empty. -/
lemma length_of_head {rest : List Char} (h : TokensAt (headTokens type) s rest) :
    rest.length < s.length := by
  obtain ⟨u, rfl, hu⟩ := h.count_eq
  have hpos : 1 ≤ count u := by
    rw [hu, headTokens, List.flatten_cons, count_append]
    exact Nat.le_add_right 1 _
  have hlen : count u ≤ u.length := List.countP_le_length
  rw [List.length_append]
  omega

/-- One round of `parse`. -/
lemma parseLoop_next (h : ReadableHeaders source type) {rest name close rest' body s' : List Char}
    {gap : Bool} (hat : At source i s) (hhead : TokensAt (headTokens type) s rest)
    (hname : NameEnd rest name close) (hclose : SpellsAll closeTokens close gap rest')
    (hbody : BodyEnd type rest' body s') :
    ∃ k, At source k s' ∧ s'.length < s.length ∧ ∀ fuel ret,
      parseLoop source type (fuel + 1) i ret = parseLoop source type fuel k
        (ret ++ [(name.rdropWhile isWs, body.rdropWhile isWs)]) := by
  have hdecl := getDecl_spec h.size hat (h.scan_head hat.suffix hhead) hname
  rw [scanAll_eq_reads.mpr hclose] at hdecl
  obtain ⟨j, hj, hat'⟩ := hdecl
  have hsuffix : s' <:+ rest :=
    hbody.suffix.trans (hclose.suffix.trans hname.suffix)
  obtain ⟨rfl, hmiss, hend⟩ := hbody
  have hget := getBody_eq h.size hat' (fun t ht hne => h.scan_differs ?_ (hmiss t ht hne)) ?_
  · have hlt := length_of_head hhead
    have hle := hsuffix.length_le
    have hi : i < source.length := by
      have hlen := hat.length_eq
      omega
    exact ⟨_, hat'.append, by omega, fun fuel ret => parseLoop_round hi hj hget⟩
  · obtain ⟨u, rfl⟩ := ht
    rw [List.append_assoc] at hat'
    exact hat'.append.suffix
  · obtain rfl | ⟨rest₂, hhead'⟩ := hend
    · exact .inl rfl
    · exact .inr ⟨false, rest₂, h.scan_head hat'.append.suffix hhead'⟩

/-- In a readable file each round returns. -/
lemma parseLoop_ok (h : Readable source type) {fuel : ℕ} {ret : List (List Char × List Char)}
    (hs : Reached source type s) (hat : At source i s) (hfuel : s.length < fuel) :
    ∃ ret', parseLoop source type fuel i ret = .ok ret' := by
  induction fuel generalizing s i ret with
  | zero => exact absurd hfuel (Nat.not_lt_zero _)
  | succ fuel ih =>
    by_cases hnil : s = []
    · subst hnil
      exact ⟨ret, parseLoop_end hat⟩
    have hi : i < source.length := by
      have hlen := hat.length_eq
      have hpos := List.length_pos_of_ne_nil hnil
      omega
    by_cases hhead : HeaderAt type s
    · obtain ⟨rest, hhead⟩ := hhead
      obtain ⟨name, close, hname⟩ := exists_nameEnd rest
      have hdecl := getDecl_spec h.size hat (h.scan_head hat.suffix hhead) hname
      cases hscan : scanAll closeTokens close with
      | reads gap rest' =>
        obtain ⟨body, s', hbody⟩ := exists_bodyEnd type rest'
        have hclose := scanAll_eq_reads.mp hscan
        obtain ⟨k, hat', hlt, hround⟩ :=
          parseLoop_next h.toReadableHeaders hat hhead hname hclose hbody
        rw [hround]
        exact ih (hs.next hhead hname hclose hbody) hat' (by omega)
      | differs =>
        rw [hscan] at hdecl
        obtain ⟨j, hj⟩ := hdecl
        exact ⟨[], parseLoop_none hi hj⟩
      | leaves => exact absurd (scanAll_eq_leaves.mp hscan) (h.close s rest name close hs hhead hname)
    · obtain ⟨j, hj⟩ := getDecl_differs h.size hat (h.scan_differs hat.suffix hhead)
      exact ⟨[], parseLoop_none hi hj⟩

/-- If `parse` returns, so does each round that it reaches. -/
lemma parseLoop_reached (h : ReadableHeaders source type) {ret : List (List Char × List Char)}
    (hparse : parse source type = .ok ret) (hs : Reached source type s) :
    ∃ i fuel ret', At source i s ∧ s.length < fuel ∧
      parseLoop source type fuel i ret' = .ok ret := by
  induction hs with
  | start => exact ⟨0, source.length + 1, [], ⟨Nat.zero_le _, rfl⟩, Nat.lt_succ_self _, hparse⟩
  | @next s rest name close rest' body s' gap _ hhead hname hclose hbody ih =>
    obtain ⟨i, fuel, ret', hat, hfuel, hloop⟩ := ih
    obtain ⟨fuel, rfl⟩ : ∃ fuel', fuel = fuel' + 1 := ⟨fuel - 1, by omega⟩
    obtain ⟨k, hat', hlt, hround⟩ := parseLoop_next h hat hhead hname hclose hbody
    rw [hround] at hloop
    exact ⟨k, fuel, _, hat', by omega, hloop⟩

/-- `parse` returns and `is_decl` is exact at each index exactly when the scanner leaves no gap and
stays inside the source. -/
theorem parse_isDecl_iff (source type : List Char) :
    ((∃ ret, parse source type = .ok ret) ∧ ∀ i ≤ source.length, ExactAt source type i) ↔
      Readable source type := by
  rw [readableHeaders_iff]
  constructor
  · rintro ⟨⟨ret, hparse⟩, h⟩
    refine ⟨h, fun s rest name close hs hhead hname hleaves => ?_⟩
    obtain ⟨i, fuel, ret', hat, hfuel, hloop⟩ := parseLoop_reached h hparse hs
    obtain ⟨fuel, rfl⟩ : ∃ fuel', fuel = fuel' + 1 := ⟨fuel - 1, by omega⟩
    have hdecl := getDecl_spec h.size hat (h.scan_head hat.suffix hhead) hname
    rw [scanAll_eq_leaves.mpr hleaves] at hdecl
    obtain ⟨e, he⟩ := hdecl
    have hlt := length_of_head hhead
    have hlen := hat.length_eq
    rw [parseLoop, if_pos (by omega), he] at hloop
    cases hloop
  · intro h
    exact ⟨parseLoop_ok h .start ⟨Nat.zero_le _, rfl⟩ (Nat.lt_succ_self _), h.toReadableHeaders⟩

/-- In this file the scanner goes behind the end in the middle of a token. -/
theorem exists_read_outside :
    parse ['<', 'h', ' '] ['c', 'o', 'n', 't', 'r', 'a', 'c', 't'] = .error .outside ∧
      ¬ ((∃ ret, parse ['<', 'h', ' '] ['c', 'o', 'n', 't', 'r', 'a', 'c', 't'] = .ok ret) ∧
        ∀ i ≤ 3, ExactAt ['<', 'h', ' '] ['c', 'o', 'n', 't', 'r', 'a', 'c', 't'] i) := by
  refine ⟨rfl, ?_⟩
  rintro ⟨⟨ret, hparse⟩, -⟩
  cases hparse

end UosioCdt.Tools.Ricardian
