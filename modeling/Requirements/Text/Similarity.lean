/-!
# Closest match

Which of several names a mistyped word was most likely meant to be. Two texts are compared by
their matching blocks: the longest block the two have in common, then the longest blocks to the
left and to the right of it, and so on. With `m` characters in matching blocks and `t` characters
altogether the similarity is `2 m / t`, and a candidate counts from `3 / 5` upwards.

In a long word a character that occurs very often says little, so it does not start a block; it may
still extend one.
-/

namespace Requirements

namespace Text

/-- A character of the word, and whether a block may start at it. -/
structure Anchor where
  char : Char
  anchors : Bool

/-- Marks the characters of a word. From 200 characters on, those that occur more than
`length / 100 + 1` times start no block. -/
def anchorsOf (word : List Char) : List Anchor :=
  let n := word.length
  word.map fun c => ⟨c, n < 200 || word.count c ≤ n / 100 + 1⟩

/-- A block: where it starts in the candidate and in the word, and how long it is. -/
structure Block where
  left : Nat
  right : Nat
  size : Nat

namespace Block

/-- For each character of the word, the length of the common run that ends there and at the
character `c` of the candidate, given the lengths for the character before `c`. -/
def runLengths (c : Char) (word : List Anchor) (before : List Nat) : List Nat :=
  List.zipWith (fun a n => if a.anchors && a.char == c then n + 1 else 0) word (0 :: before)

/-- The longer of `best` and the runs that end at position `i` of the candidate, where `lengths`
starts at position `j` of the word. Of equally long runs the first stays. -/
def improve (i : Nat) : Nat → List Nat → Block → Block
  | _, [], best => best
  | j, n :: lengths, best =>
    improve i (j + 1) lengths
      (if best.size < n then ⟨i + 1 - n, j + 1 - n, n⟩ else best)

/-- The first longest run, scanning the candidate from position `i` on. -/
def scan (word : List Anchor) : Nat → List Char → List Nat → Block → Block
  | _, [], _, best => best
  | i, c :: candidate, before, best =>
    let lengths := runLengths c word before
    scan word (i + 1) candidate lengths (improve i 0 lengths best)

/-- How many leading characters the two have in common. -/
def commonLength : List Char → List Anchor → Nat
  | c :: cs, a :: as => if c = a.char then commonLength cs as + 1 else 0
  | _, _ => 0

/-- The longest block that `candidate` and `word` have in common, extended on both sides over
equal characters of any kind. -/
def longest (candidate : List Char) (word : List Anchor) : Block :=
  let run := scan word 0 candidate (word.map fun _ => 0) ⟨0, 0, 0⟩
  let back := commonLength (candidate.take run.left).reverse (word.take run.right).reverse
  let ahead :=
    commonLength (candidate.drop (run.left + run.size)) (word.drop (run.right + run.size))
  ⟨run.left - back, run.right - back, back + run.size + ahead⟩

end Block

/-- How many characters lie in matching blocks. -/
def matching (candidate : List Char) (word : List Anchor) : Nat :=
  let block := Block.longest candidate word
  if _h : 0 < block.size ∧ block.left + block.size ≤ candidate.length then
    block.size + matching (candidate.take block.left) (word.take block.right) +
      matching (candidate.drop (block.left + block.size)) (word.drop (block.right + block.size))
  else 0
termination_by candidate.length
decreasing_by
  all_goals
    simp only [block] at _h
    simp only [List.length_take, List.length_drop]
    omega

/-- A candidate with its similarity to the word, `2 * matches / total`. -/
structure Match where
  name : String
  matched : Nat
  total : Nat

namespace Match

/-- How similar `candidate` is to `word`. Two empty texts are alike. -/
def ofCandidate (word candidate : String) : Match :=
  let total := candidate.length + word.length
  if total = 0 then ⟨candidate, 1, 2⟩
  else ⟨candidate, matching candidate.toList (anchorsOf word.toList), total⟩

/-- A match counts when its similarity is at least three fifths. -/
def isClose (m : Match) : Bool :=
  3 * m.total ≤ 10 * m.matched

/-- Whether `m` is to be preferred to `best`: it is more similar, or as similar and the greater
name. -/
def isBetter (m best : Match) : Bool :=
  let here := m.matched * best.total
  let there := best.matched * m.total
  there < here || (here == there && best.name < m.name)

end Match

/-- The candidate closest to `word`, if one is close enough. -/
def closest? (word : String) (candidates : List String) : Option String :=
  let close := (candidates.map (Match.ofCandidate word)).filter Match.isClose
  let best := close.foldl (fun best m =>
    match best with
    | none => some m
    | some b => if m.isBetter b then some m else some b) none
  best.map Match.name

end Text

end Requirements
