import Mathlib.Data.List.DropRight
import UosioCdt.Tools.RicardianText

/-!
# The scanner on its source

What `check`, `get_decl` and `get_body` do at an index is what the scanner reads in the text that is
left there. They do not return when it goes behind the end.
-/

namespace UosioCdt.Tools.Ricardian

/-- At the index `i` the text `s` is left of the source. -/
def At (source : List Char) (i : ℕ) (s : List Char) : Prop :=
  i ≤ source.length ∧ source.drop i = s

variable {source s : List Char} {i index : ℕ}

lemma At.length_eq (h : At source i s) : i + s.length = source.length := by
  obtain ⟨hle, rfl⟩ := h
  rw [List.length_drop]
  omega

lemma At.append {u : List Char} (h : At source i (u ++ s)) : At source (i + u.length) s := by
  have hlen := h.length_eq
  rw [List.length_append] at hlen
  refine ⟨by omega, ?_⟩
  rw [← List.drop_drop, h.2, List.drop_left]

lemma At.tail {c : Char} (h : At source i (c :: s)) : At source (i + 1) s :=
  At.append (u := [c]) h

lemma At.suffix (h : At source i s) : s <:+ source := h.2 ▸ List.drop_suffix i source

lemma exists_at (h : s <:+ source) : ∃ i, At source i s := by
  obtain ⟨u, rfl⟩ := h
  exact ⟨u.length, by rw [List.length_append]; omega, List.drop_left⟩

lemma At.charAt (h : At source i s) : charAt source i = .ok (s.head?.getD '\x00') := by
  rw [Ricardian.charAt, if_pos h.1, ← h.2, List.head?_drop]

lemma charAt_outside (h : source.length < i) : charAt source i = .error .outside := by
  rw [charAt, if_neg (Nat.not_le.mpr h)]

lemma toInt_of_lt (h : i < 2 ^ 31) : toInt i = .ok i := if_pos h

lemma lt_of_toInt {j : ℕ} (h : toInt i = .ok j) : j = i ∧ i < 2 ^ 31 := by
  unfold toInt at h
  split at h
  · cases h
    exact ⟨rfl, ‹_›⟩
  · cases h

/-! ## `eat_ws` -/

lemma skipWs_eq {ws tail : List Char} (hws : AllWs ws) (htail : startsWs tail = false)
    (hi : i + (ws ++ tail).length < 2 ^ 31) : skipWs (ws ++ tail) i = .ok (i + ws.length) := by
  induction ws generalizing i with
  | nil =>
    cases tail with
    | nil => rfl
    | cons c tail =>
      have hc : isWs c = false := htail
      rw [List.nil_append, skipWs, hc]
      rfl
  | cons c ws ih =>
    have hc := hws c List.mem_cons_self
    rw [List.cons_append, List.length_cons] at hi
    rw [List.cons_append, skipWs, hc, if_pos rfl, toInt_of_lt (by omega)]
    show skipWs (ws ++ tail) (i + 1) = _
    rw [ih (fun d hd => hws d (List.mem_cons_of_mem c hd)) (by omega), List.length_cons]
    congr 1
    omega

lemma eatWs_here (h : At source i s) (hs : startsWs s = false) : eatWs source index i = .ok 0 := by
  have hc : isWs (s.head?.getD '\x00') = false := by
    cases s with
    | nil => rfl
    | cons c s => exact hs
  rw [eatWs, h.charAt]
  simp only [bind, Except.bind, hc]
  rfl

lemma eatWs_skip {ws tail : List Char} (h : At source i (ws ++ tail)) (hne : ws ≠ [])
    (hws : AllWs ws) (htail : startsWs tail = false) (hsize : source.length < 2 ^ 31) :
    eatWs source index i = .ok (i + ws.length - index) := by
  have hc : isWs ((ws ++ tail).head?.getD '\x00') = true := by
    cases ws with
    | nil => exact absurd rfl hne
    | cons c ws => exact hws c List.mem_cons_self
  have hlen := h.length_eq
  rw [eatWs, h.charAt]
  simp only [bind, Except.bind, hc, h.2, skipWs_eq hws htail (by omega : i + (ws ++ tail).length < _)]
  rfl

/-- Where the scanner lands. -/
lemma eatWs_land (h : At source i s) (hi : index ≤ i) (hsize : source.length < 2 ^ 31) :
    match land (i - index) s with
    | some (s', _) => ∃ d, eatWs source index i = .ok d ∧ At source (i + d) s'
    | none => ∃ d, eatWs source index i = .ok d ∧ source.length < i + d := by
  split
  · rename_i s' gap hland
    cases lands_iff.mpr hland with
    | here hs => exact ⟨0, eatWs_here h hs, h⟩
    | @skip ws junk _ hne hws hs hlen =>
      refine ⟨_, eatWs_skip h hne hws hs hsize, ?_⟩
      have hat := h.append.append
      rwa [hlen, show i + ws.length + (i - index) = i + (i + ws.length - index) by omega] at hat
  · rename_i hland
    obtain ⟨ws, tail, rfl, hne, hws, htail, hlt⟩ := passes_iff.mpr hland
    refine ⟨_, eatWs_skip h hne hws htail hsize, ?_⟩
    have hlen := h.append.length_eq
    omega

/-! ## `check` -/

/-- The loop goes on behind the end. -/
lemma checkLoop_outside {sub : List Char} (h : source.length < i) :
    (∃ e, checkLoop source index sub i = .error e) ∨
      ∃ j, checkLoop source index sub i = .ok (some j) ∧ source.length < j := by
  cases sub with
  | nil => exact .inr ⟨i, rfl, h⟩
  | cons c sub =>
    refine .inl ⟨.outside, ?_⟩
    rw [checkLoop, eatWs, charAt_outside h]
    rfl

lemma checkLoop_differs {c : Char} {sub s' : List Char} {d : ℕ}
    (heat : eatWs source index i = .ok d) (hat : At source (i + d) s')
    (hsize : source.length < 2 ^ 31) (hc : c ≠ s'.head?.getD '\x00') :
    checkLoop source index (c :: sub) i = .ok none := by
  have hlt : i + d < 2 ^ 31 := Nat.lt_of_le_of_lt hat.1 hsize
  rw [checkLoop, heat]
  simp only [bind, Except.bind, toInt_of_lt hlt, hat.charAt, if_pos hc]
  rfl

lemma checkLoop_same {c : Char} {sub s' : List Char} {d : ℕ}
    (heat : eatWs source index i = .ok d) (hat : At source (i + d) s')
    (hsize : source.length < 2 ^ 31) (hc : c = s'.head?.getD '\x00') :
    checkLoop source index (c :: sub) i =
      toInt (i + d + 1) >>= fun i => checkLoop source index sub i := by
  have hlt : i + d < 2 ^ 31 := Nat.lt_of_le_of_lt hat.1 hsize
  rw [checkLoop, heat]
  simp only [bind, Except.bind, toInt_of_lt hlt, hat.charAt, if_neg (not_not_intro hc)]

/-- The scanner lands behind the end. -/
lemma checkLoop_passes {c : Char} {sub : List Char} {d : ℕ} (heat : eatWs source index i = .ok d)
    (hd : source.length < i + d) : ∃ e, checkLoop source index (c :: sub) i = .error e := by
  rw [checkLoop, heat]
  by_cases hlt : i + d < 2 ^ 31
  · simp only [bind, Except.bind, toInt_of_lt hlt, charAt_outside hd]
    exact ⟨_, rfl⟩
  · simp only [bind, Except.bind, toInt, if_neg hlt]
    exact ⟨_, rfl⟩

/-- What the loop of `check` does for the scanner. -/
def LoopOf (source : List Char) (res : Except Fault (Option ℕ)) : Scan → Prop :=
  Scan.Ends (fun rest => ∃ j, res = .ok (some j) ∧ At source j rest) (res = .ok none)
    ((∃ e, res = .error e) ∨ ∃ j, res = .ok (some j) ∧ source.length < j)

lemma checkLoop_spec (hsize : source.length < 2 ^ 31) (sub : List Char) (h : At source i s)
    (hi : index ≤ i) :
    LoopOf source (checkLoop source index sub i) (scan sub (i - index) s) := by
  induction sub generalizing i s with
  | nil => exact ⟨i, rfl, h⟩
  | cons c sub ih =>
    have hspec := eatWs_land h hi hsize
    rw [scan]
    cases hland : land (i - index) s with
    | none =>
      rw [hland] at hspec
      obtain ⟨d, heat, hd⟩ := hspec
      exact .inl (checkLoop_passes heat hd)
    | some landed =>
      obtain ⟨s', gap⟩ := landed
      rw [hland] at hspec
      obtain ⟨d, heat, hat⟩ := hspec
      have hlen := hat.length_eq
      cases s' with
      | nil =>
        by_cases hc : c = '\x00'
        · -- the token goes on behind the NUL at the end
          simp only [if_pos hc]
          rw [checkLoop_same heat hat hsize hc]
          by_cases hlt : i + d + 1 < 2 ^ 31
          · rw [toInt_of_lt hlt]
            exact checkLoop_outside (by rw [List.length_nil] at hlen; omega)
          · rw [toInt, if_neg hlt]
            exact .inl ⟨_, rfl⟩
        · simp only [if_neg hc]
          exact checkLoop_differs heat hat hsize hc
      | cons e s' =>
        by_cases hc : c = e
        · have hlen' := h.length_eq
          rw [List.length_cons] at hlen
          simp only [if_pos hc]
          rw [checkLoop_same heat hat hsize hc, toInt_of_lt (by omega)]
          have hrest := ih (i := i + d + 1) hat.tail (by omega)
          rw [show i + d + 1 - index = i - index + (s.length - s'.length) by omega] at hrest
          exact Scan.Ends.also hrest
        · simp only [if_neg hc]
          exact checkLoop_differs heat hat hsize hc

/-- What `check` of tokens does for the scanner. -/
def CheckOf (source : List Char) (res : Except Fault (Bool × ℕ)) : Scan → Prop :=
  Scan.Ends (fun rest => ∃ j, res = .ok (true, j) ∧ At source j rest) (∃ j, res = .ok (false, j))
    (∃ e, res = .error e)

/-- The whitespace behind a token. -/
lemma eatWs_behind {rest : List Char} (h : At source i rest) (hsize : source.length < 2 ^ 31) :
    ∃ d, eatWs source i i = .ok d ∧ At source (i + d) (rest.dropWhile isWs) := by
  have hland := eatWs_land h (Nat.le_refl i) hsize
  rw [Nat.sub_self, land] at hland
  by_cases hs : startsWs rest = true
  · simpa [hs] using hland
  · rw [Bool.not_eq_true] at hs
    rw [dropWhile_of_startsWs hs]
    simpa [hs] using hland

lemma check_spec (hsize : source.length < 2 ^ 31) (sub : List Char) (h : At source i s) :
    match scan sub 0 s with
    | .reads _ rest => ∃ j, check source sub i = .ok (true, j) ∧ At source j (rest.dropWhile isWs)
    | .differs => check source sub i = .ok (false, i)
    | .leaves => ∃ e, check source sub i = .error e := by
  have hloop := checkLoop_spec hsize sub h (Nat.le_refl i)
  have hint : toInt i = .ok i := toInt_of_lt (Nat.lt_of_le_of_lt h.1 hsize)
  rw [Nat.sub_self] at hloop
  cases hscan : scan sub 0 s with
  | reads gap rest =>
    rw [hscan] at hloop
    obtain ⟨j, hj, hat⟩ := hloop
    obtain ⟨d, heat, hat'⟩ := eatWs_behind hat hsize
    refine ⟨j + d, ?_, hat'⟩
    rw [check, hint]
    simp only [bind, Except.bind, hj, heat]
    rfl
  | differs =>
    rw [hscan] at hloop
    rw [check, hint]
    simp only [bind, Except.bind, show checkLoop source i sub i = .ok none from hloop]
    rfl
  | leaves =>
    rw [hscan] at hloop
    rw [check, hint]
    obtain ⟨e, he⟩ | ⟨j, hj, hlt⟩ := hloop
    · exact ⟨e, by simp only [bind, Except.bind, he]⟩
    · refine ⟨.outside, ?_⟩
      simp only [bind, Except.bind, hj, eatWs, charAt_outside hlt]

/-- The tokens are checked as the scanner reads them. -/
theorem checkAll_spec (hsize : source.length < 2 ^ 31) (toks : List (List Char))
    (h : At source i s) : CheckOf source (checkAll source toks i) (scanAll toks s) := by
  induction toks generalizing i s with
  | nil => exact ⟨i, rfl, h⟩
  | cons tok toks ih =>
    have hcheck := check_spec hsize tok h
    rw [scanAll, checkAll]
    cases hscan : scan tok 0 s with
    | reads gap rest =>
      rw [hscan] at hcheck
      obtain ⟨j, hj, hat⟩ := hcheck
      rw [hj]
      exact Scan.Ends.also (ih hat)
    | differs =>
      rw [hscan] at hcheck
      exact ⟨i, by rw [show check source tok i = .ok (false, i) from hcheck]; rfl⟩
    | leaves =>
      rw [hscan] at hcheck
      obtain ⟨e, he⟩ := hcheck
      exact ⟨e, by rw [he]; rfl⟩

/-! ## Names and bodies -/

/-- The trailing whitespace that the loops count. -/
def trailing (text : List Char) (ws : ℕ) : ℕ := text.foldl (fun ws c => countWs c ws) ws

/-- The text in front of the whitespace that has been counted. -/
lemma take_trailing (text : List Char) :
    text.take (text.length - trailing text 0) = text.rdropWhile isWs := by
  induction text using List.reverseRecOn with
  | nil => rfl
  | append_singleton text c ih =>
    rw [trailing, List.foldl_append, List.foldl_cons, List.foldl_nil, ← trailing, countWs,
      List.length_append, List.length_singleton]
    cases hc : isWs c with
    | true =>
      rw [if_pos rfl, List.rdropWhile_concat_pos _ _ _ hc, Nat.add_sub_add_right,
        List.take_append_of_le_length (Nat.sub_le _ _), ih]
    | false =>
      rw [if_neg (by decide), List.rdropWhile_concat_neg _ _ _ (by rw [hc]; decide), Nat.sub_zero,
        List.take_of_length_le (by rw [List.length_append, List.length_singleton])]

lemma substr_eq {text rest : List Char} (h : At source i (text ++ rest)) :
    substr source i (i + text.length - i - trailing text 0) = text.rdropWhile isWs := by
  rw [substr, h.2, Nat.add_sub_cancel_left, List.take_append_of_le_length (Nat.sub_le _ _),
    take_trailing]

/-- The name is the text up to the next tag, or to the end. -/
def NameEnd (rest name close : List Char) : Prop :=
  rest = name ++ close ∧ '<' ∉ name ∧ (close = [] ∨ ∃ t, close = '<' :: t)

lemma exists_nameEnd (rest : List Char) : ∃ name close, NameEnd rest name close := by
  induction rest with
  | nil => exact ⟨[], [], rfl, List.not_mem_nil, .inl rfl⟩
  | cons c rest ih =>
    by_cases hc : c = '<'
    · exact ⟨[], c :: rest, rfl, List.not_mem_nil, .inr ⟨rest, by rw [hc]⟩⟩
    · obtain ⟨name, close, rfl, hname, hclose⟩ := ih
      refine ⟨c :: name, close, rfl, ?_, hclose⟩
      rw [List.mem_cons, not_or]
      exact ⟨Ne.symm hc, hname⟩

lemma nameLoop_eq {name close : List Char} (ws : ℕ) (hname : '<' ∉ name)
    (hclose : close = [] ∨ ∃ t, close = '<' :: t) (hi : i + name.length < 2 ^ 31) :
    nameLoop (name ++ close) i ws = .ok (i + name.length, trailing name ws) := by
  induction name generalizing i ws with
  | nil =>
    obtain rfl | ⟨t, rfl⟩ := hclose
    · rfl
    · exact if_pos rfl
  | cons c name ih =>
    rw [List.mem_cons, not_or] at hname
    rw [List.length_cons] at hi ⊢
    rw [List.cons_append, nameLoop, if_neg (Ne.symm hname.1), toInt_of_lt (by omega)]
    show nameLoop (name ++ close) (i + 1) (countWs c ws) = _
    rw [ih (countWs c ws) hname.2 (by omega), Nat.add_right_comm, ← Nat.add_assoc]
    rfl

/-- Behind a header the name is taken if the closing tag is read. -/
lemma getDecl_spec (hsize : source.length < 2 ^ 31) {type rest name close : List Char} {gap : Bool}
    (h : At source i s) (hhead : scanAll (headTokens type) s = .reads gap rest)
    (hname : NameEnd rest name close) :
    match scanAll closeTokens close with
    | .reads _ rest' => ∃ j, getDecl source type i = .ok (some (name.rdropWhile isWs), j) ∧
        At source j rest'
    | .differs => ∃ j, getDecl source type i = .ok (none, j)
    | .leaves => ∃ e, getDecl source type i = .error e := by
  have hdecl := checkAll_spec hsize (headTokens type) h
  rw [hhead] at hdecl
  obtain ⟨j, hj, hat⟩ := hdecl
  obtain ⟨rfl, hmem, hclose⟩ := hname
  have hlen := hat.append.1
  have hloop := nameLoop_eq 0 hmem hclose (Nat.lt_of_le_of_lt hlen hsize)
  have hcheck := checkAll_spec hsize closeTokens hat.append
  have hget : getDecl source type i =
      checkAll source closeTokens (j + name.length) >>= fun res =>
        if res.1 then .ok (some (substr source j (j + name.length - j - trailing name 0)), res.2)
        else .ok (none, res.2) := by
    rw [getDecl, isDecl, hj]
    simp only [bind, Except.bind, if_pos, toInt_of_lt (Nat.lt_of_le_of_lt hat.1 hsize), hat.2, hloop]
    rfl
  rw [hget]
  cases hscan : scanAll closeTokens close with
  | reads gap' rest' =>
    rw [hscan] at hcheck
    obtain ⟨k, hk, hat'⟩ := hcheck
    refine ⟨k, ?_, hat'⟩
    rw [hk, ← substr_eq hat]
    rfl
  | differs =>
    rw [hscan] at hcheck
    obtain ⟨k, hk⟩ := hcheck
    exact ⟨k, by rw [hk]; rfl⟩
  | leaves =>
    rw [hscan] at hcheck
    obtain ⟨e, he⟩ := hcheck
    exact ⟨e, by rw [he]; rfl⟩

lemma getDecl_differs (hsize : source.length < 2 ^ 31) {type : List Char} (h : At source i s)
    (hhead : scanAll (headTokens type) s = .differs) :
    ∃ j, getDecl source type i = .ok (none, j) := by
  have hdecl := checkAll_spec hsize (headTokens type) h
  rw [hhead] at hdecl
  obtain ⟨j, hj⟩ := hdecl
  exact ⟨j, by rw [getDecl, isDecl, hj]; rfl⟩

lemma bodyLoop_eq (hsize : source.length < 2 ^ 31) {type body s' : List Char} {ws : ℕ}
    (h : At source i (body ++ s'))
    (hbody : ∀ t, t <:+ body → t ≠ [] → scanAll (headTokens type) (t ++ s') = .differs)
    (hend : s' = [] ∨ ∃ gap rest, scanAll (headTokens type) s' = .reads gap rest) :
    bodyLoop source type (body ++ s') i ws = .ok (i + body.length, trailing body ws) := by
  induction body generalizing i ws with
  | nil =>
    cases s' with
    | nil => rfl
    | cons c s' =>
      obtain hnil | ⟨gap, rest, hhead⟩ := hend
      · cases hnil
      · have hdecl := checkAll_spec hsize (headTokens type) h
        rw [List.nil_append, hhead] at hdecl
        obtain ⟨j, hj, -⟩ := hdecl
        rw [List.nil_append, bodyLoop, isDecl, hj]
        rfl
  | cons c body ih =>
    have hdecl := checkAll_spec hsize (headTokens type) h
    rw [hbody (c :: body) (List.suffix_refl _) (List.cons_ne_nil c body)] at hdecl
    obtain ⟨j, hj⟩ := hdecl
    have hat : At source (i + 1) (body ++ s') := h.tail
    have hlt : i + 1 < 2 ^ 31 := Nat.lt_of_le_of_lt hat.1 hsize
    rw [List.cons_append, bodyLoop, isDecl, hj]
    simp only [bind, Except.bind, toInt_of_lt hlt, Bool.false_eq_true, if_false]
    rw [ih hat fun t ht => hbody t (ht.trans (List.suffix_cons c body)), List.length_cons,
      Nat.add_right_comm, ← Nat.add_assoc]
    rfl

/-- The body is the text up to the next header, or to the end. -/
lemma getBody_eq (hsize : source.length < 2 ^ 31) {type body s' : List Char}
    (h : At source i (body ++ s'))
    (hbody : ∀ t, t <:+ body → t ≠ [] → scanAll (headTokens type) (t ++ s') = .differs)
    (hend : s' = [] ∨ ∃ gap rest, scanAll (headTokens type) s' = .reads gap rest) :
    getBody source type i = .ok (body.rdropWhile isWs, i + body.length) := by
  rw [getBody, toInt_of_lt (Nat.lt_of_le_of_lt h.1 hsize)]
  simp only [bind, Except.bind, h.2, bodyLoop_eq hsize h hbody hend, substr_eq h]
  rfl

/-! ## Rounds of `parse` -/

lemma parseLoop_end {type : List Char} {fuel : ℕ} {ret : List (List Char × List Char)}
    (h : At source i []) : parseLoop source type (fuel + 1) i ret = .ok ret := by
  have hlen := h.length_eq
  rw [List.length_nil] at hlen
  rw [parseLoop, if_neg (by omega)]

lemma parseLoop_round {type name body : List Char} {fuel j k : ℕ}
    {ret : List (List Char × List Char)} (hi : i < source.length)
    (hdecl : getDecl source type i = .ok (some name, j))
    (hbody : getBody source type j = .ok (body, k)) :
    parseLoop source type (fuel + 1) i ret =
      parseLoop source type fuel k (ret ++ [(name, body)]) := by
  rw [parseLoop, if_pos hi, hdecl]
  simp only [bind, Except.bind, hbody]

lemma parseLoop_none {type : List Char} {fuel j : ℕ} {ret : List (List Char × List Char)}
    (hi : i < source.length) (hdecl : getDecl source type i = .ok (none, j)) :
    parseLoop source type (fuel + 1) i ret = .ok [] := by
  rw [parseLoop, if_pos hi, hdecl]
  rfl

end UosioCdt.Tools.Ricardian
