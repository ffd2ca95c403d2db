import Mathlib.Data.List.Basic
import UosioCdt.Lib.Aborting
import UosioCdt.Tools.RicardianTheorems

/-!
# Writing and parsing Ricardian files

Names and bodies that are rendered with any whitespace around the tokens are parsed back, as long as
an `int` can hold the indices of the file.
-/

namespace UosioCdt.Tools.Ricardian

open Aborting

/-! ## Rendering -/

/-- The file of the contracts or of the clauses. -/
inductive FileKind where
  | contract
  | clause
deriving DecidableEq

def FileKind.type : FileKind → List Char
  | .contract => ['c', 'o', 'n', 't', 'r', 'a', 'c', 't']
  | .clause => ['c', 'l', 'a', 'u', 's', 'e']

/-- A name or a body: it has no `<`, and whitespace stands neither at its beginning nor at its end. -/
structure Plain (text : List Char) : Prop where
  no_tag : '<' ∉ text
  starts : startsWs text = false
  ends : startsWs text.reverse = false

abbrev Ws := { ws : List Char // AllWs ws }

/-- A pair, with the whitespace behind each token of the header and of the closing tag, behind the
name and behind the body. -/
structure Entry where
  name : List Char
  body : List Char
  name_plain : Plain name
  body_plain : Plain body
  headWs : ℕ → Ws
  nameWs : Ws
  closeWs : ℕ → Ws
  bodyWs : Ws

def Entry.pair (e : Entry) : List Char × List Char := (e.name, e.body)

/-- The tokens, and whitespace behind each one. -/
def spaced : List (List Char) → (ℕ → Ws) → List Char
  | [], _ => []
  | tok :: toks, ws => tok ++ ((ws 0).1 ++ spaced toks fun k => ws (k + 1))

def Entry.render (type : List Char) (e : Entry) (rest : List Char) : List Char :=
  spaced (headTokens type) e.headWs ++ (e.name ++ (e.nameWs.1 ++
    (spaced closeTokens e.closeWs ++ (e.body ++ (e.bodyWs.1 ++ rest)))))

/-- The file. -/
def render (type : List Char) : List Entry → List Char
  | [] => []
  | e :: es => e.render type (render type es)

/-! ## Texts -/

variable {source type s text rest : List Char} {i : ℕ}

lemma tokensAt_spaced {toks : List (List Char)} (ws : ℕ → Ws) {before : List Char}
    (hbefore : AllWs before) :
    TokensAt toks (before ++ (spaced toks ws ++ rest)) (rest.dropWhile isWs) := by
  induction toks generalizing ws before with
  | nil =>
    obtain ⟨ws', heq, hws', -⟩ := exists_ws rest
    refine ⟨before ++ ws', hbefore.append hws', ?_, startsWs_dropWhile rest⟩
    rw [List.append_assoc, ← heq]
    rfl
  | cons tok toks ih =>
    refine ⟨before, _, hbefore, ?_, ih (fun k => ws (k + 1)) (ws 0).2⟩
    rw [spaced, List.append_assoc, List.append_assoc]

lemma AllWs.reverse {ws : List Char} (h : AllWs ws) : AllWs ws.reverse := fun c hc =>
  h c (List.mem_reverse.mp hc)

/-- Whitespace behind a name or a body is taken off. -/
lemma Plain.rdropWhile (h : Plain text) {ws : List Char} (hws : AllWs ws) :
    (text ++ ws).rdropWhile isWs = text := by
  rw [List.rdropWhile, List.reverse_append, dropWhile_append hws.reverse h.ends,
    List.reverse_reverse]

lemma not_mem_ws {ws : List Char} (hws : AllWs ws) : '<' ∉ ws := fun hmem =>
  absurd (hws '<' hmem) (by decide)

/-- Behind the whitespace there is a name, or what is behind the name. -/
lemma Plain.dropWhile (h : Plain text) {ws : List Char} (hws : AllWs ws) (tail : List Char)
    (htail : startsWs tail = false) :
    ∃ text', (text ++ (ws ++ tail)).dropWhile isWs = text' ++ tail ∧ '<' ∉ text' ∧
      text'.rdropWhile isWs = text := by
  by_cases hnil : text = []
  · subst hnil
    exact ⟨[], dropWhile_append hws htail, List.not_mem_nil, rfl⟩
  · refine ⟨text ++ ws, ?_, ?_, h.rdropWhile hws⟩
    · have hstart : startsWs (text ++ (ws ++ tail)) = false := by
        cases text with
        | nil => exact absurd rfl hnil
        | cons c text => exact h.starts
      rw [dropWhile_of_startsWs hstart, List.append_assoc]
    · rw [List.mem_append, not_or]
      exact ⟨h.no_tag, not_mem_ws hws⟩

/-- No end of a body is whitespace only. -/
lemma Plain.dropWhile_ne (h : Plain text) {t : List Char} (ht : t <:+ text) (hne : t ≠ []) :
    t.dropWhile isWs ≠ [] := by
  intro hnil
  obtain ⟨u, rfl⟩ := ht
  have hws : AllWs t := List.dropWhile_eq_nil_iff.mp hnil
  have hends := h.ends
  rw [List.reverse_append, startsWs_append (List.reverse_ne_nil_iff.mpr hne) hws.reverse] at hends
  cases hends

/-- There is no header where the next character is not the one of a tag. -/
lemma scan_head_differs (h : (s.dropWhile isWs).head? ≠ some '<') :
    scanAll (headTokens type) s = .differs := by
  have hland : ∃ gap, land 0 s = some (s.dropWhile isWs, gap) := by
    unfold land
    split
    · exact ⟨_, rfl⟩
    · exact ⟨false, by rw [dropWhile_of_startsWs (Bool.eq_false_iff.mpr ‹_›)]⟩
  obtain ⟨gap, hland⟩ := hland
  have hscan : scan ['<'] 0 s = .differs := by
    rw [scan, hland]
    cases hs : s.dropWhile isWs with
    | nil => rfl
    | cons c s' =>
      rw [hs, List.head?_cons] at h
      exact if_neg fun hc => h (by rw [hc])
  rw [headTokens, scanAll, hscan]

/-- No header begins in a text without tags. -/
lemma scan_text_differs {t : List Char} (ht : '<' ∉ t) (hend : t.dropWhile isWs ≠ [] ∨ s = []) :
    scanAll (headTokens type) (t ++ s) = .differs := by
  apply scan_head_differs
  intro hhead
  have hmem : '<' ∈ t.dropWhile isWs := by
    rw [List.dropWhile_append] at hhead
    split at hhead
    · rename_i hempty
      obtain hne | rfl := hend
      · exact absurd (List.isEmpty_iff.mp hempty) hne
      · cases hhead
    · exact List.mem_of_mem_head? (by
        rwa [List.head?_append_of_ne_nil _ (fun hnil => ‹¬ _› (List.isEmpty_iff.mpr hnil))] at hhead)
  exact ht ((List.dropWhile_suffix isWs).subset hmem)

/-! ## The rounds -/

lemma startsWs_render (type : List Char) (es : List Entry) : startsWs (render type es) = false := by
  cases es <;> rfl

/-- The header of an entry, and what is behind it. -/
lemma scan_entry {before : List Char} (htype : Solid type) (e : Entry) (rest : List Char)
    (hbefore : AllWs before) :
    ∃ gap, scanAll (headTokens type) (before ++ e.render type rest) =
      .reads gap ((e.name ++ (e.nameWs.1 ++ (spaced closeTokens e.closeWs ++
        (e.body ++ (e.bodyWs.1 ++ rest))))).dropWhile isWs) :=
  ⟨false, scanAll_eq_reads.mpr ((tokensAt_spaced _ hbefore).spellsAll (solid_headTokens htype)
    fun hnil => by cases hnil)⟩

lemma scan_close (ws : ℕ → Ws) (rest : List Char) :
    ∃ gap, scanAll closeTokens (spaced closeTokens ws ++ rest) =
      .reads gap (rest.dropWhile isWs) := by
  have htoks : ∀ tok ∈ closeTokens, Solid tok ∧ tok ≠ [] := by decide
  exact ⟨false, scanAll_eq_reads.mpr ((tokensAt_spaced ws allWs_nil).spellsAll htoks
    fun hnil => by cases hnil)⟩

/-- Behind the closing tag: the text that `get_body` takes, and where it stops. -/
lemma exists_body (htype : Solid type) (e : Entry) (es : List Entry) :
    ∃ body s', (e.body ++ (e.bodyWs.1 ++ render type es)).dropWhile isWs = body ++ s' ∧
      body.rdropWhile isWs = e.body ∧
      (∃ ws, AllWs ws ∧ s' = ws ++ render type es ∧ (es = [] → ws = [])) ∧
      (∀ t, t <:+ body → t ≠ [] → scanAll (headTokens type) (t ++ s') = .differs) ∧
      (s' = [] ∨ ∃ gap rest, scanAll (headTokens type) s' = .reads gap rest) := by
  cases es with
  | nil =>
    -- the last body goes up to the end, with the whitespace behind it
    obtain ⟨body, heq, hmem, htrim⟩ := e.body_plain.dropWhile e.bodyWs.2 [] rfl
    refine ⟨body, [], heq, htrim, ⟨[], allWs_nil, rfl, fun _ => rfl⟩, fun t ht _ => ?_, .inl rfl⟩
    exact scan_text_differs (fun hc => hmem (ht.subset hc)) (.inr rfl)
  | cons e' es =>
    by_cases hnil : e.body = []
    · refine ⟨[], render type (e' :: es), ?_, hnil.symm, ⟨[], allWs_nil, rfl, fun _ => rfl⟩,
        fun t ht hne => absurd (List.suffix_nil.mp ht) hne, .inr ?_⟩
      · rw [hnil]
        exact dropWhile_append e.bodyWs.2 (startsWs_render type _)
      · obtain ⟨gap, hscan⟩ := scan_entry htype e' (render type es) allWs_nil
        exact ⟨gap, _, hscan⟩
    · -- the next header is found at the whitespace in front of it
      refine ⟨e.body, e.bodyWs.1 ++ render type (e' :: es), ?_, ?_,
        ⟨e.bodyWs.1, e.bodyWs.2, rfl, fun h => by cases h⟩, fun t ht hne => ?_, .inr ?_⟩
      · apply dropWhile_of_startsWs
        have hstarts := e.body_plain.starts
        cases hbody : e.body with
        | nil => exact absurd hbody hnil
        | cons c body =>
          rw [hbody] at hstarts
          exact hstarts
      · have htrim := e.body_plain.rdropWhile allWs_nil
        rwa [List.append_nil] at htrim
      · exact scan_text_differs (fun hc => e.body_plain.no_tag (ht.subset hc))
          (.inl (e.body_plain.dropWhile_ne ht hne))
      · obtain ⟨gap, hscan⟩ := scan_entry htype e' (render type es) e.bodyWs.2
        exact ⟨gap, _, hscan⟩

/-- An entry is not empty. -/
lemma lt_length_render (type : List Char) (e : Entry) (es : List Entry) :
    (render type es).length + e.body.length + e.bodyWs.1.length < (render type (e :: es)).length := by
  have hhead : 1 ≤ (spaced (headTokens type) e.headWs).length := by
    rw [headTokens, spaced, List.length_append]
    exact Nat.le_add_right 1 _
  rw [render, Entry.render, List.length_append, List.length_append, List.length_append,
    List.length_append, List.length_append, List.length_append]
  omega

/-- Each round parses one entry. -/
lemma parseLoop_render (hsize : source.length < 2 ^ 31) (htype : Solid type) (es : List Entry)
    {before : List Char} {fuel : ℕ} {ret : List (List Char × List Char)} (hbefore : AllWs before)
    (hnil : es = [] → before = []) (hat : At source i (before ++ render type es))
    (hfuel : (before ++ render type es).length < fuel) :
    parseLoop source type fuel i ret = .ok (ret ++ es.map Entry.pair) := by
  obtain ⟨fuel, rfl⟩ : ∃ fuel', fuel = fuel' + 1 := ⟨fuel - 1, by omega⟩
  induction es generalizing i fuel before ret with
  | nil =>
    rw [hnil rfl] at hat
    rw [parseLoop_end hat, List.map_nil, List.append_nil]
  | cons e es ih =>
    obtain ⟨gap, hhead⟩ := scan_entry htype e (render type es) hbefore
    obtain ⟨name, hname, hmem, htrim⟩ := e.name_plain.dropWhile e.nameWs.2
      (spaced closeTokens e.closeWs ++ (e.body ++ (e.bodyWs.1 ++ render type es))) rfl
    rw [hname] at hhead
    have hdecl := getDecl_spec hsize hat hhead ⟨rfl, hmem, .inr ⟨_, rfl⟩⟩
    obtain ⟨gap', hclose⟩ := scan_close e.closeWs
      (e.body ++ (e.bodyWs.1 ++ render type es))
    rw [hclose] at hdecl
    obtain ⟨j, hj, hat'⟩ := hdecl
    obtain ⟨body, s', hbody, htrim', ⟨ws, hws, rfl, hws'⟩, hmiss, hend⟩ := exists_body htype e es
    rw [hbody] at hat'
    have hget := getBody_eq hsize hat' hmiss hend
    have hlen := hat.length_eq
    have hlt := lt_length_render type e es
    have hle : (body ++ (ws ++ render type es)).length ≤
        (e.body ++ (e.bodyWs.1 ++ render type es)).length :=
      hbody ▸ (List.dropWhile_suffix isWs).length_le
    rw [List.length_append] at hlen hfuel hle
    rw [List.length_append, List.length_append] at hle
    obtain ⟨fuel, rfl⟩ : ∃ fuel', fuel = fuel' + 1 := ⟨fuel - 1, by omega⟩
    rw [parseLoop_round (by omega) hj hget,
      ih hws hws' hat'.append fuel (by rw [List.length_append] at hle ⊢; omega), htrim, htrim',
      List.map_cons, List.append_assoc]
    rfl

/-! ## Large files -/

lemma bodyLoop_lt {text : List Char} {ws k ws' : ℕ} (hi : i < 2 ^ 31)
    (h : bodyLoop source type text i ws = .ok (k, ws')) : k < 2 ^ 31 := by
  induction text generalizing i ws with
  | nil =>
    cases h
    exact hi
  | cons c text ih =>
    obtain ⟨⟨found, j⟩, -, h⟩ := ok_of_bind h
    cases found with
    | true =>
      cases h
      exact hi
    | false =>
      obtain ⟨i', hi', h⟩ := ok_of_bind h
      obtain ⟨rfl, hlt⟩ := lt_of_toInt hi'
      exact ih hlt h

/-- The index behind a body is an `int`. -/
lemma getBody_lt {body : List Char} {k : ℕ} (h : getBody source type i = .ok (body, k)) :
    k < 2 ^ 31 := by
  unfold getBody at h
  obtain ⟨before, hbefore, hrest⟩ := ok_of_bind h
  obtain ⟨rfl, hlt⟩ := lt_of_toInt hbefore
  obtain ⟨⟨i', ws⟩, hloop, hret⟩ := ok_of_bind hrest
  cases hret
  exact bodyLoop_lt hlt hloop

/-- A list that is not empty comes from a file whose indices are `int`s. -/
lemma lt_of_parseLoop {fuel : ℕ} {ret ret' : List (List Char × List Char)}
    (h : parseLoop source type fuel i ret = .ok ret') (hi : i < source.length) :
    ret' = [] ∨ source.length < 2 ^ 31 := by
  induction fuel generalizing i ret with
  | zero => cases h
  | succ fuel ih =>
    rw [parseLoop, if_pos hi] at h
    obtain ⟨⟨decl, j⟩, -, h⟩ := ok_of_bind h
    cases decl with
    | none =>
      cases h
      exact .inl rfl
    | some name =>
      obtain ⟨⟨body, k⟩, hbody, h⟩ := ok_of_bind h
      by_cases hk : k < source.length
      · exact ih h hk
      · exact .inr (Nat.lt_of_le_of_lt (Nat.not_lt.mp hk) (getBody_lt hbody))

/-- A file parses back to its pairs exactly when its indices are `int`s. -/
theorem parse_render_iff (kind : FileKind) (es : List Entry) :
    parse (render kind.type es) kind.type = .ok (es.map Entry.pair) ↔
      (render kind.type es).length < 2 ^ 31 := by
  have htype : Solid kind.type := by cases kind <;> decide
  constructor
  · intro hparse
    cases es with
    | nil => exact Nat.two_pow_pos 31
    | cons e es =>
      have hlt := lt_length_render kind.type e es
      obtain hnil | hsize := lt_of_parseLoop hparse (by omega)
      · cases hnil
      · exact hsize
  · intro hsize
    exact parseLoop_render hsize htype es allWs_nil (fun _ => rfl)
      ⟨Nat.zero_le _, rfl⟩ (Nat.lt_succ_self _)

lemma plain_replicate (n : ℕ) : Plain (List.replicate n 'x') where
  no_tag hmem := absurd (List.eq_of_mem_replicate hmem) (by decide)
  starts := by cases n <;> rfl
  ends := by
    rw [List.reverse_replicate]
    cases n <;> rfl

/-- An entry without whitespace that the tokens do not need, and with a body of `n` characters. -/
def longEntry (n : ℕ) : Entry where
  name := ['a']
  body := List.replicate n 'x'
  name_plain := ⟨by decide, rfl, rfl⟩
  body_plain := plain_replicate n
  headWs := fun _ => ⟨[], allWs_nil⟩
  nameWs := ⟨[], allWs_nil⟩
  closeWs := fun _ => ⟨[], allWs_nil⟩
  bodyWs := ⟨[], allWs_nil⟩

/-- A body of `2 ^ 31` characters is not parsed back. -/
theorem exists_not_parsed_back :
    parse (render FileKind.contract.type [longEntry (2 ^ 31)]) FileKind.contract.type ≠
      .ok [(longEntry (2 ^ 31)).pair] := by
  intro hparse
  have hlt := lt_length_render FileKind.contract.type (longEntry (2 ^ 31)) []
  have hbody : (longEntry (2 ^ 31)).body.length = 2 ^ 31 := List.length_replicate
  obtain hnil | hsize := lt_of_parseLoop hparse (by omega)
  · cases hnil
  · omega

end UosioCdt.Tools.Ricardian
