import AccessLayer.Config.Glob.Matcher
import AccessLayer.Config.Glob.Pattern

/-!
# From patterns to matchers

Neighbouring pieces are joined where one matcher can do the work of several, and what the options of
a choice have in common is taken out of the choice.

* `Glob.join`: one matcher for several in a row.
* `Glob.compile`: the matcher of a pattern.
-/

namespace AccessLayer.Glob

/-- The characters that divide the names of a path. -/
def separators : List Char := ['/']

/-! ## Simpler forms -/

/-- The simpler form of a matcher with neighbours, when its value is a text. -/
def simplerAround (value : Matcher) (left right : Option Matcher) : Matcher :=
  match value, left, right with
  | .text s, none, none => .text s
  | .text s, some .all, some .all => .holding s false
  | .text s, some .all, none => .ending s
  | .text s, none, some .all => .starting s
  | .text s, none, some (.ending back) => .startingAndEnding s back
  | .text s, some (.starting front), none => .startingAndEnding front s
  | .text s, some (.run excluded), none => .endingRun s excluded
  | .text s, none, some (.run excluded) => .startingRun s excluded
  | value, left, right => .around value left right

mutual

def simpler : Matcher → Matcher
  | .some_ [m] => m
  | .among [c] false => .text (String.utf8EncodeChar c)
  | .around value left right => simplerAround value (simplerSide left) (simplerSide right)
  | m => m

def simplerSide : Option Matcher → Option Matcher
  | none => none
  | some m => some (simpler m)

end

/-! ## Joining neighbours -/

/-- What a matcher for single characters or for runs leaves out, and whether it is for runs. -/
def runClass? : Matcher → Option (List Char × Matcher)
  | .all => some ([], .all)
  | .run excluded => some (excluded, .run excluded)
  | .one excluded => some (excluded, .one excluded)
  | .among chars true => some (chars, .one chars)
  | _ => none

def joinRuns? (ms : List Matcher) : Option Matcher :=
  match ms.mapM runClass? with
  | none | some [] | some [_] => none
  | some ((excluded, m) :: rest) =>
    if rest.all (·.1 == excluded) then
      let kinds := m :: rest.map (·.2)
      let singles := kinds.countP fun | .one _ => true | _ => false
      let hasAll := kinds.any fun | .all => true | _ => false
      let hasRun := kinds.any fun | .run _ => true | _ => false
      if hasAll && !hasRun && singles == 0 then some .all
      else if hasRun && !hasAll && singles == 0 then some (.run excluded)
      else if (hasRun || hasAll) && singles > 0 && excluded.isEmpty then some (.atLeast singles)
      else
        some (.every ((if singles > 0 then
            .atLeast singles :: if hasRun || hasAll then [] else [.atMost singles]
          else []) ++
          if excluded.isEmpty then [] else [.holding (Bytes.ofChars excluded) true]))
    else none

def joinRow? (ms : List Matcher) : Option Matcher :=
  if ms.length ≤ 1 then none
  else if ms.all (·.size.isSome) then some (.row ms)
  else none

def glue? (ms : List Matcher) : Option Matcher := (joinRuns? ms).or (joinRow? ms)

/-- A stretch of a list that can be joined: where it begins, how long it is and what it becomes. -/
structure Stretch where
  start : Nat
  count : Nat
  joined : Matcher

/-- Whether a stretch is better than the best one before it: it is longer or stands for more. -/
def Stretch.isBetter (s best : Stretch) : Bool :=
  (match best.joined.size, s.joined.size with
    | some m, some n => m < n
    | _, _ => false) || best.count < s.count

/-- All stretches, by their beginnings and the longest first. -/
def stretches (ms : List Matcher) : List Stretch :=
  (List.range ms.length).flatMap fun start =>
    (List.range (ms.length - start)).reverse.filterMap fun n =>
      (glue? ((ms.drop start).take (n + 1))).map fun joined => ⟨start, n + 1, joined⟩

def bestStretch? (ms : List Matcher) : Option Stretch :=
  (stretches ms).foldl (fun best s =>
    match best with
    | none => some s
    | some b => if s.isBetter b then some s else some b) none

def joinNeighbours (fuel : Nat) (ms : List Matcher) : List Matcher :=
  match fuel with
  | 0 => ms
  | fuel + 1 =>
    match bestStretch? ms with
    | none => ms
    | some s =>
      joinNeighbours fuel (ms.take s.start ++ [s.joined] ++ ms.drop (s.start + s.count))

/-- The last of the matchers with the largest fixed size, by its position. -/
def pivot? (ms : List Matcher) : Option Nat :=
  ((ms.zipIdx.filterMap fun (m, i) => m.size.map fun n => (n, i)).foldl (fun best x =>
    match best with
    | none => some x
    | some b => if b.1 ≤ x.1 then some x else some b) none).map (·.2)

def arrange (fuel : Nat) (ms : List Matcher) : Matcher :=
  match fuel, ms with
  | 0, _ | _, [] => .nothing
  | _, [m] => m
  | fuel + 1, first :: rest =>
    match glue? ms with
    | some m => m
    | none =>
      match pivot? ms with
      | none => .around first none (some (arrange fuel rest))
      | some i =>
        let side (xs : List Matcher) : Option Matcher :=
          if xs.isEmpty then none else some (arrange fuel xs)
        .around (ms.getD i .nothing) (side (ms.take i)) (side (ms.drop (i + 1)))

def join (ms : List Matcher) : Matcher :=
  let ms := joinNeighbours ms.length (ms.map simpler)
  simpler (arrange (ms.length + 1) ms)

/-! ## Choices -/

/-- What is common to options: the pieces that all of them start with and end with. -/
structure Shared where
  front : List Piece := []
  back : List Piece := []

/-- The position of the shortest of several options, the first one if there are more. -/
def shortestIndex (options : List (List Piece)) : Nat :=
  (options.zipIdx.foldl (fun best x =>
    if x.1.length < best.1.length then x else best) (options.headD [], 0)).2

/-- How far the comparison of options has come: whether a difference was found at the front and at
the back, and how many pieces are shared there. -/
structure Comparison where
  frontEnded : Bool := false
  backEnded : Bool := false
  front : Nat := 0
  back : Nat := 0

namespace Comparison

/-- Compares the `i`-th piece from the front and from the back of the shortest option with another
option. Where the two places meet, the front has the piece. -/
def withOption (base : List Piece) (i : Nat) (c : Comparison) (o : List Piece) : Comparison :=
  if c.frontEnded && c.backEnded then c
  else
    let same (xs ys : List Piece) : Bool :=
      match xs[i]?, ys[i]? with
      | some p, some q => p.same q
      | _, _ => false
    let frontEnded := c.frontEnded || !same base o
    { c with frontEnded
             backEnded := c.backEnded || (!frontEnded && base.length - 1 - i ≤ i) ||
               !same base.reverse o.reverse }

/-- Compares the options piece by piece, from both ends at once. -/
def run (base : List Piece) (others : List (List Piece)) (fuel i : Nat) (c : Comparison) :
    Comparison :=
  match fuel with
  | 0 => c
  | fuel + 1 =>
    if c.front + c.back < base.length && i < base.length && !(c.frontEnded && c.backEnded) then
      let c := others.foldl (withOption base i) c
      run base others fuel (i + 1)
        { c with front := if c.frontEnded then c.front else c.front + 1
                 back := if c.backEnded then c.back else c.back + 1 }
    else c

end Comparison

def shared (options : List (List Piece)) : Shared :=
  match options with
  | _ :: _ :: _ =>
    let k := shortestIndex options
    let base := options.getD k []
    let c := Comparison.run base (options.eraseIdx k) base.length 0 {}
    { front := base.take c.front, back := base.drop (base.length - c.back) }
  | _ => {}

def dropRepeated : List (List Piece) → List (List Piece)
  | [] => []
  | o :: os => o :: (dropRepeated os).filter fun q => !samePieces o q

/-! ## Patterns -/

def partMatcher : Part → Matcher
  | .text cs => .text (Bytes.ofChars cs)
  | .one => .one separators
  | .run => .run separators
  | .all => .all
  | .among chars negated => .among chars negated
  | .range lo hi negated => .range lo hi negated

mutual

def compileAll (fuel : Nat) (ps : List Piece) : Matcher :=
  match fuel with
  | 0 => .nothing
  | fuel + 1 => join (ps.map (compileOne fuel))

def compileOne (fuel : Nat) (p : Piece) : Matcher :=
  match fuel with
  | 0 => .nothing
  | fuel + 1 =>
    match p with
    | .part p => simpler (partMatcher p)
    | .anyOf options =>
      let s := shared options
      if s.front.isEmpty && s.back.isEmpty then .some_ (options.map (compileAll fuel))
      else
        let middle := dropRepeated (options.map fun o =>
          (o.drop s.front.length).take (o.length - s.front.length - s.back.length))
        let choice : List Matcher := match middle with
          | [] | [[]] => []
          | [o] => [compileAll fuel o]
          | os => [compileOne fuel (.anyOf os)]
        join ((if s.front.isEmpty then [] else [compileAll fuel s.front]) ++ choice ++
          if s.back.isEmpty then [] else [compileAll fuel s.back])

end

mutual

def Piece.weight : Piece → Nat
  | .part _ => 1
  | .anyOf options => 1 + optionsWeight options

def optionsWeight : List (List Piece) → Nat
  | [] => 0
  | o :: os => 1 + piecesWeight o + optionsWeight os

def piecesWeight : List Piece → Nat
  | [] => 0
  | p :: ps => p.weight + piecesWeight ps

end

def compile (ps : List Piece) : Matcher := compileAll (4 * piecesWeight ps + 4) ps

end AccessLayer.Glob
