import Mathlib.Data.List.TakeWhile

/-!
# Tokens

The tokens of a text are its longest stretches without a delimiter. Delimiters next to each
other, or at an end of the text, leave no empty token between or beside them. The elements of a
text are of any type; for a program that reads bytes, each of them stands for one byte.

An iterator reads the tokens one after another. It walks along the list of tokens, and reading
past the end of that list is an error.
-/

namespace MatchingEngine

/-- The tokens of a text between dropped delimiters. -/
def tokens {α : Type*} (isDropped : α → Bool) (text : List α) : List (List α) :=
  (text.splitOnP isDropped).filter fun tok => !tok.isEmpty

section Tokens

variable {α : Type*} {isDropped : α → Bool}

@[simp] theorem tokens_nil : tokens isDropped [] = [] := by
  simp [tokens]

/-- A delimiter ends the tokens before it. -/
theorem tokens_append_cons (before after : List α) {delimiter : α} (hdelimiter : isDropped delimiter = true) :
    tokens isDropped (before ++ delimiter :: after) = tokens isDropped before ++ tokens isDropped after := by
  rw [tokens, List.splitOnP_append_cons before after hdelimiter, List.filter_append]
  rfl

/-- A delimiter in front belongs to no token. -/
theorem tokens_cons {delimiter : α} (hdelimiter : isDropped delimiter = true) (text : List α) :
    tokens isDropped (delimiter :: text) = tokens isDropped text := by
  rw [← List.nil_append (delimiter :: text), tokens_append_cons [] text hdelimiter, tokens_nil, List.nil_append]

/-- A text without a delimiter is one token, unless it is empty. -/
theorem tokens_of_forall {text : List α} (htext : text ≠ []) (hkept : ∀ c ∈ text, isDropped c = false) :
    tokens isDropped text = [text] := by
  rw [tokens, List.splitOnP_eq_singleton fun c hc => by simp [hkept c hc]]
  simp [htext]

/-- Texts without a delimiter, joined by one, are the tokens of the whole. -/
theorem tokens_intercalate {delimiter : α} (hdelimiter : isDropped delimiter = true) {texts : List (List α)}
    (htexts : ∀ text ∈ texts, text ≠ [] ∧ ∀ c ∈ text, isDropped c = false) :
    tokens isDropped (List.intercalate [delimiter] texts) = texts := by
  induction texts with
  | nil => exact tokens_nil
  | cons text texts ih =>
    obtain ⟨⟨htext, hkept⟩, hrest⟩ := List.forall_mem_cons.mp htexts
    cases texts with
    | nil => simpa using tokens_of_forall htext hkept
    | cons second texts =>
      rw [List.intercalate_cons_cons, List.append_assoc, List.singleton_append, tokens_append_cons _ _ hdelimiter,
        tokens_of_forall htext hkept, ih hrest, List.singleton_append]

/-- An element at which dropping stops is not dropped. -/
theorem eq_false_of_dropWhile {text rest : List α} {c : α} (h : text.dropWhile isDropped = c :: rest) :
    isDropped c = false := by
  have hhead := List.head?_dropWhile_not isDropped text
  rwa [h] at hhead

/-- Delimiters in front belong to no token. -/
theorem tokens_dropWhile (text : List α) : tokens isDropped (text.dropWhile isDropped) = tokens isDropped text := by
  induction text with
  | nil => rfl
  | cons c text ih =>
    cases hc : isDropped c with
    | false => rw [List.dropWhile_cons_of_neg (by simp [hc])]
    | true => rw [List.dropWhile_cons_of_pos hc, ih, tokens_cons hc]

/-- The first token ends where the first delimiter after it is, or with the text. -/
theorem tokens_takeWhile {text : List α} (hstart : text.takeWhile (fun c => !isDropped c) ≠ []) :
    tokens isDropped text =
      text.takeWhile (fun c => !isDropped c) :: tokens isDropped (text.dropWhile fun c => !isDropped c) := by
  have hkept : ∀ c ∈ text.takeWhile (fun c => !isDropped c), isDropped c = false := by
    intro c hc
    simpa using List.mem_takeWhile_imp hc
  have hfirst := tokens_of_forall hstart hkept
  cases hrest : text.dropWhile fun c => !isDropped c with
  | nil =>
    have htext := List.takeWhile_append_dropWhile (p := fun c => !isDropped c) (l := text)
    rw [hrest, List.append_nil] at htext
    rw [htext] at hfirst
    rw [htext, hfirst, tokens_nil]
  | cons delimiter rest =>
    have hdelimiter : isDropped delimiter = true := by simpa using eq_false_of_dropWhile hrest
    have htext := List.takeWhile_append_dropWhile (p := fun c => !isDropped c) (l := text)
    rw [hrest] at htext
    calc tokens isDropped text
        = tokens isDropped (text.takeWhile (fun c => !isDropped c) ++ delimiter :: rest) := by rw [htext]
      _ = [text.takeWhile fun c => !isDropped c] ++ tokens isDropped rest := by
        rw [tokens_append_cons _ _ hdelimiter, hfirst]
      _ = _ := by rw [tokens_cons hdelimiter, List.singleton_append]

end Tokens

/-- An iterator over the tokens of a text: what is left of the text, and the current token if there is one. -/
structure TokenIterator (α : Type*) where
  rest : List α
  valid : Bool
  tok : List α
deriving DecidableEq

namespace TokenIterator

variable {α : Type*} (isDropped : α → Bool)

/-- Read the next token, after the delimiters in front of it. -/
def advance (iterator : TokenIterator α) : TokenIterator α :=
  let start := iterator.rest.dropWhile isDropped
  if start.isEmpty then { iterator with rest := start, valid := false }
  else ⟨start.dropWhile fun c => !isDropped c, true, start.takeWhile fun c => !isDropped c⟩

/-- The iterator at the first token of a text. -/
def begin (text : List α) : TokenIterator α := advance isDropped ⟨text, false, []⟩

/-- Go to the next token, from a token. -/
def increment (iterator : TokenIterator α) : Option (TokenIterator α) :=
  if iterator.valid then some (advance isDropped iterator) else none

/-- The current token. -/
def dereference (iterator : TokenIterator α) : Option (List α) :=
  if iterator.valid then some iterator.tok else none

/-- The current token and those after it. -/
def ahead (iterator : TokenIterator α) : List (List α) :=
  if iterator.valid then iterator.tok :: tokens isDropped iterator.rest else []

variable {iterator next : TokenIterator α}

/-- Reading a token puts the iterator before the tokens that are left. -/
theorem ahead_advance (iterator : TokenIterator α) :
    ahead isDropped (advance isDropped iterator) = tokens isDropped iterator.rest := by
  rw [← tokens_dropWhile, advance]
  cases hstart : iterator.rest.dropWhile isDropped with
  | nil => simp [ahead]
  | cons c start =>
    have hfirst : (c :: start).takeWhile (fun c => !isDropped c) ≠ [] := by simp [eq_false_of_dropWhile hstart]
    rw [tokens_takeWhile hfirst]
    simp [ahead]

/-- The iterator begins before all tokens of the text. -/
@[simp] theorem ahead_begin (text : List α) : ahead isDropped (begin isDropped text) = tokens isDropped text :=
  ahead_advance isDropped _

/-- The current token is the first one ahead. -/
theorem dereference_eq (iterator : TokenIterator α) : iterator.dereference = (ahead isDropped iterator).head? := by
  unfold dereference ahead
  split <;> rfl

variable {isDropped}

/-- Going on leaves the first token ahead behind. -/
theorem increment_eq (hnext : increment isDropped iterator = some next) :
    ahead isDropped next = (ahead isDropped iterator).tail := by
  unfold increment at hnext
  split at hnext
  · obtain rfl := Option.some.inj hnext
    rename_i hvalid
    rw [ahead_advance, ahead, if_pos hvalid, List.tail_cons]
  · cases hnext

/-- An iterator can go on from a token only. -/
theorem increment_eq_none : increment isDropped iterator = none ↔ ahead isDropped iterator = [] := by
  unfold increment ahead
  split <;> simp

end TokenIterator

end MatchingEngine
