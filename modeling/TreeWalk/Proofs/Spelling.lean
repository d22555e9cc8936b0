import TreeWalk.Proofs.Canonical

namespace TreeWalk

/-- A text that is cut into these tokens wherever what follows stands apart. -/
def Spells (text : String) (ts : List Token) : Prop :=
  ∀ rest, Apart rest → tokenize (text.toList ++ rest) = ts ++ tokenize rest

theorem spells_token {t : Token} (h : t.Lexical) : Spells t.spelled [t] :=
  fun _ hrest => t.tokenize_spelled h hrest

theorem Spells.ofText {text : String} {ts : List Token} (h : Spells text ts) :
    Token.ofText text = ts := by
  have htext := h [] apart_nil
  rwa [List.append_nil, tokenize_nil, List.append_nil] at htext

/-- Texts with commas between them, and the sign that closes the list. -/
theorem tokenize_commas {texts : List String} {parts : List (List Token)}
    (h : List.Forall₂ Spells texts parts) {c : Char} {k : Kind} (hk : Kind.ofChar? c = some k)
    (hc : c ≠ '=' ∧ c ≠ '!') (rest : List Char) :
    tokenize ((", ".intercalate texts).toList ++ c :: rest) =
      commas parts ++ k.token :: tokenize rest := by
  have hclosing := Kind.tokenize_sign hk hc rest
  induction h with
  | nil => exact hclosing
  | @cons text part texts parts htext hrest ih =>
    cases hrest with
    | nil =>
      obtain ⟨_, hletter, hdigit, _⟩ := Kind.ofChar?_eq_some hk
      have hlast := htext (c :: rest) (apart_cons ⟨hletter, hdigit, hc.1⟩ rest)
      simpa [commas, hclosing] using hlast
    | @cons text' part' texts parts _ _ =>
      have hlist : (", ".intercalate (text :: text' :: texts)).toList ++ c :: rest =
          text.toList ++ ',' :: ' ' ::
            ((", ".intercalate (text' :: texts)).toList ++ c :: rest) := by
        simp [String.toList_intercalate]
      rw [hlist, htext _ (apart_cons (by decide) _), Kind.tokenize_sign rfl (by decide),
        tokenize_gap (by decide), ih, commas_cons_cons]
      simp

theorem spells_enclosed {texts : List String} {parts : List (List Token)}
    (h : List.Forall₂ Spells texts parts) {o c : Char} {j k : Kind} (hj : Kind.ofChar? o = some j)
    (ho : o ≠ '=' ∧ o ≠ '!') (hk : Kind.ofChar? c = some k) (hc : c ≠ '=' ∧ c ≠ '!') :
    Spells (String.ofList [o] ++ ", ".intercalate texts ++ String.ofList [c])
      (j.token :: (commas parts ++ [k.token])) := by
  intro rest _
  have hlist : (String.ofList [o] ++ ", ".intercalate texts ++ String.ofList [c]).toList ++ rest =
      o :: ((", ".intercalate texts).toList ++ c :: rest) := by simp
  rw [hlist, Kind.tokenize_sign hj ho, tokenize_commas h hk hc]
  simp

theorem Spells.enclosed {text : String} {ts : List Token} (h : Spells text ts) {o c : Char}
    {j k : Kind} (hj : Kind.ofChar? o = some j) (ho : o ≠ '=' ∧ o ≠ '!')
    (hk : Kind.ofChar? c = some k) (hc : c ≠ '=' ∧ c ≠ '!') :
    Spells (String.ofList [o] ++ text ++ String.ofList [c]) (j.token :: (ts ++ [k.token])) := by
  have henclosed := spells_enclosed (.cons h .nil) hj ho hk hc
  have hone : ", ".intercalate [text] = text := rfl
  simpa only [hone, commas, List.flatMap_nil, List.append_nil] using henclosed

theorem Spells.grouped {text : String} {ts : List Token} (h : Spells text ts) :
    Spells ("(" ++ text ++ ")") (grouped ts) :=
  h.enclosed (o := '(') (c := ')') rfl (by decide) rfl (by decide)

theorem Spells.append {text text' : String} {ts us : List Token} (h : Spells text ts)
    (h' : Spells text' us) (hapart : ∀ rest, Apart (text'.toList ++ rest)) :
    Spells (text ++ text') (ts ++ us) := by
  intro rest hrest
  rw [String.toList_append, List.append_assoc, h _ (hapart rest), h' rest hrest,
    List.append_assoc]

theorem Spells.behind_space {text : String} {ts : List Token} (h : Spells text ts) :
    Spells (" " ++ text) ts := by
  intro rest hrest
  have hlist : (" " ++ text).toList ++ rest = ' ' :: (text.toList ++ rest) := by simp
  rw [hlist, tokenize_gap (by decide), h rest hrest]

theorem spells_pair {key value : String} {ts us : List Token} (hkey : Spells key ts)
    (hvalue : Spells value us) : Spells (key ++ ":" ++ value) (ts ++ Kind.colon.token :: us) := by
  intro rest hrest
  have hlist : (key ++ ":" ++ value).toList ++ rest =
      key.toList ++ ':' :: (value.toList ++ rest) := by simp
  rw [hlist, hkey _ (apart_cons (by decide) _), Kind.tokenize_sign rfl (by decide),
    hvalue rest hrest]
  simp

theorem Kind.spelled_token {k : Kind} (hk : k.isFixed) : k.token.spelled = k.spelling := by
  refine Token.spelled_of_ne fun hstring => ?_
  obtain rfl : k = .string := hstring
  cases hk

theorem Kind.tokenize_spaced {k : Kind} (hk : k.isFixed) (rest : List Char) :
    tokenize (k.spelling.toList ++ ' ' :: rest) = k.token :: tokenize rest := by
  have hspells := spells_token (Kind.lexical_token hk)
  rw [Kind.spelled_token hk] at hspells
  rw [hspells _ (apart_cons (by decide) _), tokenize_gap (by decide), List.singleton_append]

theorem spells_minus {text : String} {ts : List Token} (h : Spells text ts) :
    Spells ("-" ++ text) (Kind.minus.token :: ts) := by
  intro rest hrest
  have hlist : ("-" ++ text).toList ++ rest = '-' :: (text.toList ++ rest) := by simp
  rw [hlist, Kind.tokenize_sign rfl (by decide), h rest hrest, List.cons_append]

/-- Before an equals sign, an exclamation mark would be half of another sign. -/
theorem spells_bang {text : String} {ts : List Token} (h : Spells text ts)
    (hfront : text.toList.head? ≠ some '=') : Spells ("!" ++ text) (Kind.bang.token :: ts) := by
  intro rest hrest
  have hnext : (text.toList ++ rest).head? ≠ some '=' := by
    cases htext : text.toList with
    | nil => exact fun hequal => (hrest '=' hequal).2.2 rfl
    | cons => rwa [htext] at hfront
  have hstart : Lexeme.start '!' (text.toList ++ rest) = ⟨Kind.bang.token, 0⟩ :=
    Lexeme.start_sign (by decide) (by decide) (by decide) fun _ => hnext
  have hlist : ("!" ++ text).toList ++ rest = '!' :: (text.toList ++ rest) := by simp
  rw [hlist, tokenize_cons (by decide), hstart, List.drop_zero, h rest hrest, List.cons_append]

theorem spells_unary {k : Kind} (hk : k.isUnary) {text : String} {ts : List Token}
    (h : Spells text ts) (hfront : text.toList.head? ≠ some '=') :
    Spells (k.spelling ++ text) (k.token :: ts) := by
  cases k with
  | bang => exact spells_bang h hfront
  | minus => exact spells_minus h
  | _ => cases hk

theorem spells_binary {k : Kind} (hk : k.isBinary) {text text' : String} {ts us : List Token}
    (h : Spells text ts) (h' : Spells text' us) :
    Spells (text ++ " " ++ k.spelling ++ " " ++ text') (ts ++ k.token :: us) := by
  intro rest hrest
  have hlist : (text ++ " " ++ k.spelling ++ " " ++ text').toList ++ rest =
      text.toList ++ ' ' :: (k.spelling.toList ++ ' ' :: (text'.toList ++ rest)) := by simp
  rw [hlist, h _ (apart_cons (by decide) _), tokenize_gap (by decide),
    Kind.tokenize_spaced (Kind.isFixed_of_isBinary hk), h' rest hrest]
  simp

end TreeWalk
