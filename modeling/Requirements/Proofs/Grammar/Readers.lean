import Mathlib.Data.List.Perm.Basic
import Mathlib.Tactic.Lemma
import Requirements.Proofs.Grammar.Derivation

/-!
# Readers and the words they consume

A reader that succeeds has taken words off the front of its feed and has perhaps used tags. What the
words derive is read off the run, part by part; conversely, if the feed starts with words that
derive something, then the reader succeeds on them, provided that it does not read on: the word
behind them has to be one that *stops* the reader.
-/

namespace Requirements

namespace Parser

namespace Feed

/-- The word that comes next. -/
def next? (feed : Feed) : Option Lexeme :=
  feed.tokens.head?.map Token.lexeme

/-- The place of the word that comes next. -/
def place (feed : Feed) : Position :=
  (feed.tokens.head?.map Token.start).getD feed.finish

/-- What comes behind the next word. -/
def rest (feed : Feed) : Feed :=
  { feed with tokens := feed.tokens.tail }

/-- The tags used so far. -/
def used (feed : Feed) : List String :=
  feed.tags.map Prod.fst

end Feed

/-! ### Runs -/

section Runs

variable {α β : Type} {feed feed' : Feed}

/-- A sequence of readers succeeds if both do, one behind the other. -/
theorem run_bind_ok_iff {m : Reader α} {f : α → Reader β} {b : β} :
    (m >>= f).run feed = .ok (b, feed') ↔
      ∃ a mid, m.run feed = .ok (a, mid) ∧ (f a).run mid = .ok (b, feed') := by
  rw [StateT.run_bind]
  cases m.run feed with
  | error e => simp [bind, Except.bind]
  | ok r =>
    obtain ⟨a, mid⟩ := r
    simp [bind, Except.bind]

/-- Behind a success the second reader goes on from the feed that is left. -/
lemma run_bind_of_ok {m : Reader α} {f : α → Reader β} {a : α} {mid : Feed}
    (h : m.run feed = .ok (a, mid)) : (m >>= f).run feed = (f a).run mid := by
  rw [StateT.run_bind, h]
  rfl

/-- Looking at the next word takes nothing away. -/
@[simp] theorem run_next?_bind (f : Option Lexeme → Reader β) (feed : Feed) :
    (next? >>= f).run feed = (f feed.next?).run feed := rfl

/-- Looking at the place leaves the feed. -/
@[simp] lemma run_place_bind (f : Position → Reader β) (feed : Feed) :
    (place >>= f).run feed = (f feed.place).run feed := rfl

/-- Skipping takes one token off the feed. -/
@[simp] lemma run_skip_bind (f : Unit → Reader β) (feed : Feed) :
    (skip >>= f).run feed = (f ()).run feed.rest := rfl

/-- Looking at the feed leaves it. -/
@[simp] lemma run_get_bind (f : Feed → Reader β) (feed : Feed) :
    ((get : Reader Feed) >>= f).run feed = (f feed).run feed := rfl

@[simp] lemma run_skip (feed : Feed) : skip.run feed = .ok ((), feed.rest) := rfl

/-- A failure at a place is no success. -/
lemma run_failAt_ne_ok {p : Position} {fault : GrammarFault} {r : α × Feed} :
    (failAt p fault : Reader α).run feed ≠ .ok r := by
  intro h
  cases h

/-- A failure is no success. -/
lemma run_fail_ne_ok {fault : GrammarFault} {r : α × Feed} :
    (fail fault : Reader α).run feed ≠ .ok r := by
  intro h
  cases h

/-- A repetition has more fuel than there are tokens. -/
theorem run_forTokens (loop : Nat → Reader α) (feed : Feed) :
    (forTokens loop).run feed = (loop (feed.tokens.length + 1)).run feed := rfl

end Runs

/-! ### Consumed words -/

/-- From `feed` to `feed'`, the words have been taken off the front and the tags have been used,
none of which had been used before. -/
structure Consumes (feed feed' : Feed) (words : List Lexeme) (tags : List String) : Prop where
  tokens : ∃ taken, feed.tokens = taken ++ feed'.tokens ∧ taken.map Token.lexeme = words
  finish : feed'.finish = feed.finish
  used : feed'.used.Perm (tags ++ feed.used)
  nodup : feed.used.Nodup → feed'.used.Nodup

namespace Consumes

variable {feed mid feed' : Feed} {words words' : List Lexeme} {tags tags' : List String}

/-- Nothing is consumed between a feed and itself. -/
lemma refl (feed : Feed) : Consumes feed feed [] [] :=
  ⟨⟨[], rfl, rfl⟩, rfl, .rfl, id⟩

/-- What is consumed in two steps is consumed. -/
lemma trans (h : Consumes feed mid words tags) (h' : Consumes mid feed' words' tags') :
    Consumes feed feed' (words ++ words') (tags ++ tags') := by
  obtain ⟨taken, htokens, hwords⟩ := h.tokens
  obtain ⟨taken', htokens', hwords'⟩ := h'.tokens
  refine ⟨⟨taken ++ taken', ?_, ?_⟩, h'.finish.trans h.finish, ?_, fun hn => h'.nodup (h.nodup hn)⟩
  · rw [htokens, htokens', List.append_assoc]
  · rw [List.map_append, hwords, hwords']
  · have hused := h'.used.trans (h.used.append_left tags')
    rw [← List.append_assoc] at hused
    exact hused.trans (List.perm_append_comm.append_right feed.used)

/-- Tags count in any order. -/
theorem perm (h : Consumes feed feed' words tags) (htags : tags.Perm tags') :
    Consumes feed feed' words tags' :=
  ⟨h.tokens, h.finish, h.used.trans (htags.append_right feed.used), h.nodup⟩

/-- Passing over the next word consumes it. -/
theorem rest {l : Lexeme} (h : feed.next? = some l) : Consumes feed feed.rest [l] [] := by
  obtain ⟨tokens, finish, tags⟩ := feed
  cases tokens with
  | nil => cases h
  | cons t tokens =>
    obtain rfl : t.lexeme = l := by simpa [Feed.next?] using h
    exact ⟨⟨[t], rfl, rfl⟩, rfl, .rfl, id⟩

end Consumes

end Parser

end Requirements
