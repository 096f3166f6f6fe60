import Nanom.Common.Loop
import Nanom.Nom.Combinators

/-!
# The loops

A loop takes rounds, and a round calls the inner parser where the cursor is.
`many0`, `checked_many0`, `many_m_n` and the three `fold_many` are one loop with
parameters, `repetition`; `many_till` and `separated_list0` have loops of their
own. A loop has as many rounds as its input has bytes, and one more: `never` is
the result of one that is not at its end then. What a loop does comes with the
number of its calls of the inner parsers.
-/

namespace Nanom.Nom

open Loop (Round run)

variable {α β γ : Type}

/-! ## One parser, again and again -/

/-- A repetition on its way: what was made of the values, how many they are,
where it is, and how often it has called the parser. -/
structure Repeating (β : Type) where
  acc : β
  got : ℕ
  cur : Input
  calls : ℕ

/-- What a repetition comes to: `full` says that it has all it may have. -/
structure Repeated (β : Type) where
  acc : β
  got : ℕ
  full : Bool

/-- A round, which `limit` can keep from calling the parser. -/
def repetitionRound (p : Parser α) (limit : Option ℕ) (stuck : String) (f : β → α → β)
    (s : Repeating β) : Round (Repeating β) (Result (Repeated β) × ℕ) :=
  if limit = some s.got then .stop (.done ⟨s.acc, s.got, true⟩ s.cur, s.calls)
  else
    match p s.cur with
    | .never => .stop (.never, s.calls + 1)
    | .unexp e =>
      if e.kind ≠ .err then .stop (.unexp e, s.calls + 1)
      else .stop (.done ⟨s.acc, s.got, false⟩ s.cur, s.calls + 1)
    | .done v rest =>
      -- a round that stays where it is would go on for ever
      if rest.offset = s.cur.offset then .stop (.unexp (makeErr s.cur stuck), s.calls + 1)
      else .next ⟨f s.acc v, s.got + 1, rest, s.calls + 1⟩

/-- The rounds from a state on, and the calls up to the end. -/
def repetition (p : Parser α) (limit : Option ℕ) (stuck : String) (f : β → α → β)
    (s : Repeating β) : Result (Repeated β) × ℕ :=
  (run (repetitionRound p limit stuck f) (s.cur.size + 1) s).getD (.never, s.calls)

/-- `out.push_back`. -/
def push (out : List α) (v : α) : List α := out ++ [v]

/-- A repetition whose values are all there is to it. -/
def Repeated.only (r : Result (Repeated β) × ℕ) : Result β × ℕ :=
  (r.1.andThen fun s cur => .done s.acc cur, r.2)

/-- A repetition of which `m` are too few. -/
def Repeated.atLeast (m : ℕ) (few : String) (r : Result (Repeated β) × ℕ) : Result β × ℕ :=
  (r.1.andThen fun s cur =>
    if s.got < m then .unexp (makeErr cur few) else .done s.acc cur, r.2)

/-- `many0`, with its calls. -/
def many0Calls (p : Parser α) (i : Input) : Result (List α) × ℕ :=
  Repeated.only (repetition p none "many0: inner parser must consume input" push ⟨[], 0, i, 0⟩)

def many0 (p : Parser α) : Parser (List α) := fun i => (many0Calls p i).1

/-- `checked_many0`, with its calls: after `maxRep` values the parser is
called once more, to see that there is no other one. -/
def checkedMany0Calls (p : Parser α) (maxRep : ℕ) (i : Input) : Result (List α) × ℕ :=
  match repetition p (some maxRep) "checked_many0: inner parser must consume input" push
      ⟨[], 0, i, 0⟩ with
  | (.done r cur, calls) =>
    if r.full then
      match p cur with
      | .done _ _ =>
        (.unexp (makeErr cur "checked_many0: repetition cap exceeded"), calls + 1)
      | .never => (.never, calls + 1)
      | .unexp e =>
        (if e.kind ≠ .err then .unexp e else .done r.acc cur, calls + 1)
    else (.done r.acc cur, calls)
  | (.unexp e, calls) => (.unexp e, calls)
  | (.never, calls) => (.never, calls)

def checkedMany0 (p : Parser α) (maxRep : ℕ) : Parser (List α) := fun i =>
  (checkedMany0Calls p maxRep i).1

/-- A first call, and what comes after it: the loop starts with that call
counted. -/
def withFirst (p : Parser α) (i : Input) (next : α → Input → Result β × ℕ) : Result β × ℕ :=
  match p i with
  | .done v rest => next v rest
  | .unexp e => (.unexp e, 1)
  | .never => (.never, 1)

/-- `many1`, with its calls. -/
def many1Calls (p : Parser α) (i : Input) : Result (List α) × ℕ :=
  withFirst p i fun v rest =>
    let r := Repeated.only
      (repetition p none "many0: inner parser must consume input" push ⟨[], 0, rest, 1⟩)
    (r.1.andThen fun vs rest => .done (v :: vs) rest, r.2)

def many1 (p : Parser α) : Parser (List α) := fun i => (many1Calls p i).1

/-- `many_m_n`, with its calls. -/
def manyMNCalls (m n : ℕ) (p : Parser α) (i : Input) : Result (List α) × ℕ :=
  Repeated.atLeast m "many_m_n: not enough repetitions"
    (repetition p (some n) "many_m_n: inner parser must consume input" push ⟨[], 0, i, 0⟩)

def manyMN (m n : ℕ) (p : Parser α) : Parser (List α) := fun i => (manyMNCalls m n p i).1

/-- `fold_many0`, with its calls. -/
def foldMany0Calls (p : Parser α) (init : β) (f : β → α → β) (i : Input) : Result β × ℕ :=
  Repeated.only (repetition p none "fold_many0: inner parser must consume input" f ⟨init, 0, i, 0⟩)

def foldMany0 (p : Parser α) (init : β) (f : β → α → β) : Parser β := fun i =>
  (foldMany0Calls p init f i).1

/-- `fold_many1`, with its calls. -/
def foldMany1Calls (p : Parser α) (init : β) (f : β → α → β) (i : Input) : Result β × ℕ :=
  withFirst p i fun v rest =>
    Repeated.only
      (repetition p none "fold_many1: inner parser must consume input" f ⟨f init v, 0, rest, 1⟩)

def foldMany1 (p : Parser α) (init : β) (f : β → α → β) : Parser β := fun i =>
  (foldMany1Calls p init f i).1

/-- `fold_many_m_n`, with its calls. -/
def foldManyMNCalls (m n : ℕ) (p : Parser α) (init : β) (f : β → α → β) (i : Input) :
    Result β × ℕ :=
  Repeated.atLeast m "fold_many_m_n: not enough repetitions"
    (repetition p (some n) "fold_many_m_n: inner parser must consume input" f ⟨init, 0, i, 0⟩)

def foldManyMN (m n : ℕ) (p : Parser α) (init : β) (f : β → α → β) : Parser β := fun i =>
  (foldManyMNCalls m n p init f i).1

/-! ## Two parsers -/

/-- How often two parsers have been called: the one whose values are kept,
and the one that ends or separates them. -/
structure Calls where
  item : ℕ
  other : ℕ

/-- A loop over two parsers on its way. -/
structure Listing (α : Type) where
  out : List α
  cur : Input
  calls : Calls

/-- A round of `many_till`. -/
def manyTillRound (p : Parser α) (end_ : Parser γ) (s : Listing α) :
    Round (Listing α) (Result (List α × γ) × Calls) :=
  match end_ s.cur with
  | .done v rest => .stop (.done (s.out, v) rest, ⟨s.calls.item, s.calls.other + 1⟩)
  | .never => .stop (.never, ⟨s.calls.item, s.calls.other + 1⟩)
  | .unexp e =>
    if e.kind ≠ .err then .stop (.unexp e, ⟨s.calls.item, s.calls.other + 1⟩)
    else
      match p s.cur with
      | .never => .stop (.never, ⟨s.calls.item + 1, s.calls.other + 1⟩)
      | .unexp e => .stop (.unexp e, ⟨s.calls.item + 1, s.calls.other + 1⟩)
      | .done v rest =>
        if rest.offset = s.cur.offset then
          .stop (.unexp (makeErr s.cur "many_till: inner parser must consume input"),
            ⟨s.calls.item + 1, s.calls.other + 1⟩)
        else .next ⟨s.out ++ [v], rest, ⟨s.calls.item + 1, s.calls.other + 1⟩⟩

/-- `many_till`, with its calls. -/
def manyTillCalls (p : Parser α) (end_ : Parser γ) (i : Input) : Result (List α × γ) × Calls :=
  (run (manyTillRound p end_) (i.size + 1) ⟨[], i, ⟨0, 0⟩⟩).getD (.never, ⟨0, 0⟩)

def manyTill (p : Parser α) (end_ : Parser γ) : Parser (List α × γ) := fun i =>
  (manyTillCalls p end_ i).1

/-- A round of `separated_list0`: a separator with no element behind it is
not part of the list. Only a failure gets through. -/
def separatedRound (sep : Parser γ) (p : Parser α) (s : Listing α) :
    Round (Listing α) (Result (List α) × Calls) :=
  match sep s.cur with
  | .never => .stop (.never, ⟨s.calls.item, s.calls.other + 1⟩)
  | .unexp e =>
    if e.kind = .fail then .stop (.unexp e, ⟨s.calls.item, s.calls.other + 1⟩)
    else .stop (.done s.out s.cur, ⟨s.calls.item, s.calls.other + 1⟩)
  | .done _ behind =>
    match p behind with
    | .never => .stop (.never, ⟨s.calls.item + 1, s.calls.other + 1⟩)
    | .unexp e =>
      if e.kind = .fail then .stop (.unexp e, ⟨s.calls.item + 1, s.calls.other + 1⟩)
      else .stop (.done s.out s.cur, ⟨s.calls.item + 1, s.calls.other + 1⟩)
    | .done v rest =>
      if rest.offset = s.cur.offset then
        .stop (.unexp (makeErr s.cur "separated_list0: no progress"),
          ⟨s.calls.item + 1, s.calls.other + 1⟩)
      else .next ⟨s.out ++ [v], rest, ⟨s.calls.item + 1, s.calls.other + 1⟩⟩

/-- The elements behind the first one. -/
def separatedRest (sep : Parser γ) (p : Parser α) (s : Listing α) : Result (List α) × Calls :=
  (run (separatedRound sep p) (s.cur.size + 1) s).getD (.never, s.calls)

/-- `separated_list0`, with its calls. -/
def separatedList0Calls (sep : Parser γ) (p : Parser α) (i : Input) : Result (List α) × Calls :=
  match p i with
  | .never => (.never, ⟨1, 0⟩)
  | .unexp e => (if e.kind = .fail then .unexp e else .done [] i, ⟨1, 0⟩)
  | .done v rest => separatedRest sep p ⟨[v], rest, ⟨1, 0⟩⟩

def separatedList0 (sep : Parser γ) (p : Parser α) : Parser (List α) := fun i =>
  (separatedList0Calls sep p i).1

/-- `separated_list1`, with its calls. -/
def separatedList1Calls (sep : Parser γ) (p : Parser α) (i : Input) : Result (List α) × Calls :=
  let r := separatedList0Calls sep p i
  (r.1.andThen fun vs rest =>
    if vs.isEmpty then .unexp (makeErr i "separated_list1: at least one element")
    else .done vs rest, r.2)

def separatedList1 (sep : Parser γ) (p : Parser α) : Parser (List α) := fun i =>
  (separatedList1Calls sep p i).1

/-! ## Counted loops -/

/-- The loop of `count`, with `n` rounds to go. -/
def countFrom (p : Parser α) : ℕ → List α → Parser (List α)
  | 0, out => fun cur => .done out cur
  | n + 1, out => fun cur => (p cur).andThen fun v rest => countFrom p n (out ++ [v]) rest

def count (p : Parser α) (n : ℕ) : Parser (List α) := countFrom p n []

def lengthCount (size : α → ℕ) (np : Parser α) (p : Parser β) : Parser (List β) := fun i =>
  (np i).andThen fun n rest => count p (size n) rest

end Nanom.Nom
