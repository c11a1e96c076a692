import Datapack.Proofs.Command.Game

/-!
# Templates and their placeholders

A placeholder is a key between `$(` and `)`.  Substitution goes through a template once, from left to right:
a placeholder gives way to its text, every other character stays, and no text is searched again.  The
templates of a registry have different names, and no placeholder that is not a parameter.
-/

namespace Datapack.Command

/-! ## Placeholders -/

/-- A lower-case letter or an underscore, and further ones or digits behind it. -/
def IsKey (name : String) : Prop :=
  ∃ c cs, name.toList = c :: cs ∧ isNameStart c = true ∧ ∀ d ∈ cs, isNameChar d = true

def placeholderChars (name : String) : List Char := '$' :: '(' :: (name.toList ++ [')'])

/-- A text with every placeholder replaced once by what `x` gives for its key. -/
inductive Expands (x : String → String) : List Char → List Char → Prop where
  | nil : Expands x [] []
  | placeholder {name : String} {cs ds : List Char} (hname : IsKey name) (hrest : Expands x cs ds) :
      Expands x (placeholderChars name ++ cs) ((x name).toList ++ ds)
  | char {c : Char} {cs ds : List Char} (hnone : ∀ name, IsKey name → ¬placeholderChars name <+: c :: cs)
      (hrest : Expands x cs ds) : Expands x (c :: cs) (c :: ds)

def Piece.expand (x : String → String) : Piece → List Char
  | char c => [c]
  | placeholder name => (x name).toList

variable {x : String → String} {texts : String → Option String} {cs rest : List Char} {name : String} {t : Template}

theorem IsKey.isNameChar {c : Char} (h : IsKey name) (hc : c ∈ name.toList) : isNameChar c = true := by
  obtain ⟨d, ds, hname, hd, hds⟩ := h
  rw [hname] at hc
  rcases List.mem_cons.1 hc with rfl | hc
  · rw [Command.isNameChar, hd, Bool.true_or]
  · exact hds c hc

theorem IsKey.dot_not_mem (h : IsKey name) : '.' ∉ name.toList := fun hmem =>
  absurd (h.isNameChar hmem) (by decide)

theorem placeholder?_eq_some_iff :
    placeholder? cs = some (name, rest) ↔ IsKey name ∧ cs = name.toList ++ ')' :: rest := by
  constructor
  · intro h
    cases cs with
    | nil => cases h
    | cons c cs =>
        rw [placeholder?] at h
        split at h
        · next hstart =>
          split at h
          · next rest' hdrop =>
            obtain ⟨rfl, rfl⟩ := Prod.mk.inj (Option.some.inj h)
            have hsplit := List.takeWhile_append_dropWhile (p := isNameChar) (l := c :: cs)
            rw [hdrop] at hsplit
            rw [String.toList_ofList]
            refine ⟨⟨c, cs.takeWhile isNameChar, ?_, hstart, List.all_eq_true.1 List.all_takeWhile⟩, hsplit.symm⟩
            rw [String.toList_ofList, List.takeWhile_cons_of_pos (by rw [isNameChar, hstart, Bool.true_or])]
          · cases h
        · cases h
  · rintro ⟨hname, rfl⟩
    have hchars : ∀ c ∈ name.toList, isNameChar c = true := fun c => hname.isNameChar
    have htake : (name.toList ++ ')' :: rest).takeWhile isNameChar = name.toList := by
      rw [List.takeWhile_append_of_pos hchars, List.takeWhile_cons_of_neg (by decide), List.append_nil]
    have hdrop : (name.toList ++ ')' :: rest).dropWhile isNameChar = ')' :: rest := by
      rw [List.dropWhile_append_of_pos hchars, List.dropWhile_cons_of_neg (by decide)]
    obtain ⟨c, cs, hcons, hstart, -⟩ := hname
    rw [hcons, List.cons_append] at htake hdrop ⊢
    rw [placeholder?, if_pos hstart, hdrop, htake, ← hcons, String.ofList_toList]
    rfl

theorem exists_placeholder_iff :
    (∃ name, IsKey name ∧ placeholderChars name <+: '$' :: '(' :: cs) ↔ ∃ r, placeholder? cs = some r := by
  constructor
  · rintro ⟨name, hname, rest, hrest⟩
    refine ⟨(name, rest), placeholder?_eq_some_iff.2 ⟨hname, ?_⟩⟩
    simpa [placeholderChars] using hrest.symm
  · rintro ⟨⟨name, rest⟩, h⟩
    obtain ⟨hname, rfl⟩ := placeholder?_eq_some_iff.1 h
    exact ⟨name, hname, rest, by simp [placeholderChars]⟩

theorem not_placeholder_prefix {a : Char} (h : ¬(a = '$' ∧ cs.head? = some '(')) (name : String) :
    ¬placeholderChars name <+: a :: cs := by
  rintro ⟨rest, hrest⟩
  rw [placeholderChars, List.cons_append, List.cons_append, List.cons.injEq] at hrest
  obtain ⟨rfl, rfl⟩ := hrest
  exact h ⟨rfl, rfl⟩

theorem expands_pieces (x : String → String) (cs : List Char) : Expands x cs ((pieces cs).flatMap (Piece.expand x)) := by
  fun_induction pieces cs with
  | case1 => exact .nil
  | case2 c => exact .char (fun name _ => not_placeholder_prefix (by simp) name) .nil
  | case3 a b rest hopen name rest' hplaceholder _ ih =>
      obtain ⟨rfl, rfl⟩ := hopen
      obtain ⟨hname, rfl⟩ := placeholder?_eq_some_iff.1 hplaceholder
      have hchars : '$' :: '(' :: (name.toList ++ ')' :: rest') = placeholderChars name ++ rest' := by
        simp [placeholderChars]
      rw [hchars]
      exact .placeholder hname ih
  | case4 a b rest hopen hnone ih =>
      obtain ⟨rfl, rfl⟩ := hopen
      refine .char (fun name hname hpre => ?_) ih
      obtain ⟨r, hr⟩ := exists_placeholder_iff.1 ⟨name, hname, hpre⟩
      cases hnone.symm.trans hr
  | case5 a b rest hopen ih =>
      refine .char (fun name _ => not_placeholder_prefix ?_ name) ih
      simpa using hopen

theorem isKey_of_mem_pieces (h : .placeholder name ∈ pieces cs) : IsKey name := by
  fun_induction pieces cs with
  | case1 => cases h
  | case2 c => simp at h
  | case3 a b rest _ name' rest' hplaceholder _ ih =>
      rcases List.mem_cons.1 h with heq | h
      · cases heq
        exact (placeholder?_eq_some_iff.1 hplaceholder).1
      · exact ih h
  | case4 a b rest _ _ ih => exact ih (by simpa using h)
  | case5 a b rest _ ih => exact ih (by simpa using h)

theorem mem_placeholders_iff : name ∈ t.placeholders ↔ .placeholder name ∈ pieces t.line.toList := by
  simp only [Template.placeholders, List.mem_filterMap]
  constructor
  · rintro ⟨p, hp, heq⟩
    cases p with
    | char c => cases heq
    | placeholder name' => exact Option.some.inj heq ▸ hp
  · exact fun h => ⟨_, h, rfl⟩

/-- The line of a template with the text of every parameter in place. -/
def Template.expand (t : Template) (x : String → String) : String :=
  String.ofList ((pieces t.line.toList).flatMap (Piece.expand x))

theorem substitute_eq_expand {values : List (String × String)}
    (h : ∀ name ∈ t.placeholders, values.lookup name = some (x name)) : t.substitute values = t.expand x := by
  refine congrArg String.ofList (List.flatMap_congr fun p hp => ?_)
  cases p with
  | char c => rfl
  | placeholder name => simp [Piece.expand, h name (mem_placeholders_iff.2 hp)]

theorem fill_eq_expand (h : ∀ name ∈ t.placeholders, texts name = some (x name)) :
    fill texts t.line = some (t.expand x) := by
  have hpieces : ∀ ps : List Piece, (∀ name, .placeholder name ∈ ps → texts name = some (x name)) →
      ps.mapM (Piece.fill texts) = some (ps.map (Piece.expand x)) := by
    intro ps hps
    induction ps with
    | nil => rfl
    | cons p ps ih =>
        have hfirst : p.fill texts = some (p.expand x) := by
          cases p with
          | char c => rfl
          | placeholder name => simp [Piece.fill, Piece.expand, hps name List.mem_cons_self]
        rw [List.mapM_cons, hfirst, ih fun name hname => hps name (List.mem_cons_of_mem p hname)]
        rfl
  rw [fill, hpieces _ fun name hname => h name (mem_placeholders_iff.2 hname)]
  rfl

/-! ## Registries -/

/-- Templates that have been registered one after the other. -/
inductive Templates.Registered : Templates → Prop where
  | nil : Registered []
  | register {ts ts' : Templates} {t : Template} (h : Registered ts) (ht : ts.register t = .ok ts') : Registered ts'

theorem register_eq_ok_iff {ts ts' : Templates} :
    ts.register t = .ok ts' ↔
      (∀ p ∈ t.placeholders, p ∈ t.params) ∧ (∀ u ∈ ts, u.name ≠ t.name) ∧ ts' = ts ++ [t] := by
  unfold Templates.register
  split
  · next p hp =>
    have hundeclared := List.find?_some hp
    refine iff_of_false (by simp) fun h => ?_
    exact absurd (h.1 p (List.mem_of_find?_eq_some hp)) (of_decide_eq_true hundeclared)
  · next hnone =>
    have hdeclared : ∀ p ∈ t.placeholders, p ∈ t.params := by simpa using hnone
    split
    · next hany =>
      refine iff_of_false (by simp) fun h => ?_
      obtain ⟨u, hu, hname⟩ := List.any_eq_true.1 hany
      exact absurd (of_decide_eq_true hname) (h.2.1 u hu)
    · next hany =>
      have hnew : ∀ u ∈ ts, u.name ≠ t.name := by simpa using hany
      rw [Except.ok.injEq, eq_comm]
      exact ⟨fun heq => ⟨hdeclared, hnew, heq⟩, fun h => h.2.2⟩

namespace Templates.Registered

variable {ts : Templates}

theorem declared (h : Registered ts) (ht : t ∈ ts) : ∀ p ∈ t.placeholders, p ∈ t.params := by
  induction h with
  | nil => cases ht
  | register _ hregister ih =>
      obtain ⟨hdeclared, -, rfl⟩ := register_eq_ok_iff.1 hregister
      rcases List.mem_append.1 ht with ht | ht
      · exact ih ht
      · exact List.mem_singleton.1 ht ▸ hdeclared

theorem find?_eq (h : Registered ts) (ht : t ∈ ts) : ts.find? (·.name = t.name) = some t := by
  induction h with
  | nil => cases ht
  | @register ts _ u _ hregister ih =>
      obtain ⟨-, hnew, rfl⟩ := register_eq_ok_iff.1 hregister
      rw [List.find?_append]
      rcases List.mem_append.1 ht with ht | ht
      · rw [ih ht, Option.some_or]
      · obtain rfl := List.mem_singleton.1 ht
        rw [List.find?_eq_none.2 fun u hu => by simpa using hnew u hu]
        simp

end Templates.Registered

end Datapack.Command
