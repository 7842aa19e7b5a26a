import Carwatch.Lib.Dict
import Carwatch.BoardSync.Text

/-!
# Carwatch.BoardSync.Checklist — `docs/milestones.md` (`tools/board_sync.py`)

The checklist is the board: a table of milestones between two markers, and a
checkbox line, with its continuation lines, for each issue.

* **Patterns**: one function for each regular expression of the script. Each is
  deterministic: where an expression could give characters back, the next thing
  it wants is of another class.
* **Reading**: `parse` and the parts of its loop.
* **Writing**: `render`, `setTag`, `setChecked`.
-/

namespace Carwatch.BoardSync

open Carwatch.Lib

/-! ## Constants -/

/-- The keys of `PEOPLE`. -/
inductive Person where
  | camden
  | lance
deriving DecidableEq, Repr

/-- A key of `PEOPLE`. -/
def Person.key : Person → Text
  | .camden => "camden".toList
  | .lance => "lance".toList

/-- `PEOPLE` -/
def Person.login : Person → Text
  | .camden => "CamdenThomas".toList
  | .lance => "Lance-Baron".toList

/-- The person of a key. -/
def personOf (key : Text) : Option Person :=
  if key = Person.camden.key then some .camden
  else if key = Person.lance.key then some .lance
  else none

/-- `WRAP` -/
abbrev wrap : ℕ := 90

/-- `TABLE_OPEN` -/
def tableOpen : Text := "<!-- board-sync:milestones -->".toList

/-- `TABLE_CLOSE` -/
def tableClose : Text := "<!-- /board-sync:milestones -->".toList

/-! ## Patterns -/

/-- The text behind a literal at its front. -/
def eat : Text → Text → Option Text
  | [], t => some t
  | _ :: _, [] => none
  | c :: lit, d :: t => if c = d then eat lit t else none

/-- `M[0-6]` at the front, and what is behind it. -/
def milestoneRe : Text → Option (Text × Text)
  | 'M' :: d :: rest => if '0' ≤ d ∧ d ≤ '6' then some (['M', d], rest) else none
  | _ => none

/-- `\b` behind a character of a word. -/
def wordEnds (db : UnicodeDb) : Text → Bool
  | [] => true
  | c :: _ => !isWord db c

/-- `SECTION_RE`: its group. -/
def sectionRe (db : UnicodeDb) (line : Text) : Option Text :=
  match eat ['#', '#', ' '] line with
  | none => none
  | some rest =>
      match milestoneRe rest with
      | some (ms, rest) => if wordEnds db rest then some ms else none
      | none => none

/-- `ITEM_RE`: its groups. -/
def itemRe : Text → Option (Char × Text)
  | '-' :: ' ' :: '[' :: mark :: ']' :: ' ' :: body =>
      if mark = ' ' ∨ mark = 'x' ∨ mark = 'X' then some (mark, body) else none
  | _ => none

/-- `ROW_RE`: its group. -/
def rowRe : Text → Option Text
  | '|' :: rest =>
      match milestoneRe (rest.dropWhile isSpace) with
      | some (ms, rest) => if (rest.dropWhile isSpace).head? = some '|' then some ms else none
      | none => none
  | _ => none

/-- White space, and then a literal. -/
def eatPast (lit t : Text) : Option Text := eat lit (t.dropWhile isSpace)

/-- `TAG_RE` at the front: its group, and what is behind it. -/
def tagAt (db : UnicodeDb) (t : Text) : Option (Text × Text) :=
  match (eatPast ['<', '!', '-', '-'] t).bind (eatPast ['#']) with
  | none => none
  | some t =>
      if t.takeWhile (isDecimal db) = [] then none
      else (eatPast ['-', '-', '>'] (t.dropWhile (isDecimal db))).map (t.takeWhile (isDecimal db), ·)

/-- `TAG_RE.findall` and `TAG_RE.sub("", ·)` in one. The first argument is how
much of the text the last match still covers. -/
def scanTags (db : UnicodeDb) : ℕ → Text → List Text × Text
  | _, [] => ([], [])
  | skip + 1, _ :: t => scanTags db skip t
  | 0, c :: t =>
      match tagAt db (c :: t) with
      | some (digits, rest) =>
          let r := scanTags db (t.length - rest.length) t
          (digits :: r.1, r.2)
      | none =>
          let r := scanTags db 0 t
          (r.1, c :: r.2)

/-- `OWNER_RE.findall` and `OWNER_RE.sub("", ·)` in one; `prev` is the character
before, which `(?<!\S)` looks at. -/
def scanOwners (db : UnicodeDb) : Option Char → ℕ → Text → List Text × Text
  | _, _, [] => ([], [])
  | _, skip + 1, c :: t => scanOwners db (some c) skip t
  | prev, 0, c :: t =>
      if c = '@' ∧ prev.all isSpace ∧ t.takeWhile (isWord db) ≠ [] then
        let r := scanOwners db (some c) (t.takeWhile (isWord db)).length t
        (t.takeWhile (isWord db) :: r.1, r.2)
      else
        let r := scanOwners db (some c) 0 t
        (r.1, c :: r.2)

/-- `[a-z0-9-]` -/
def slugChar (c : Char) : Bool := ('a' ≤ c && c ≤ 'z') || ('0' ≤ c && c ≤ '9') || c == '-'

/-- `SLUG_RE` at the front: its group. -/
def slugAt : Text → Option Text
  | [] => none
  | c :: t =>
      if isSpace c then
        match t.dropWhile isSpace with
        | '`' :: a :: rest =>
            let more := rest.takeWhile slugChar
            if 'a' ≤ a ∧ a ≤ 'z' ∧ 1 ≤ more.length ∧ more.length ≤ 30 ∧
                rest.dropWhile slugChar = ['`'] then some (a :: more)
            else none
        | _ => none
      else none

/-- `SLUG_RE.search`: what stands before the match, and its group. -/
def slugSearch : Text → Option (Text × Text)
  | [] => none
  | c :: t =>
      match slugAt (c :: t) with
      | some slug => some ([], slug)
      | none => (slugSearch t).map fun r => (c :: r.1, r.2)

/-! ## Items -/

/-- `Item` -/
structure Item where
  milestone : Text
  checked : Bool
  text : Text
  slug : Option Text
  owner : Option Person
  number : Option ℕ
  first : ℕ
  last : ℕ
deriving DecidableEq

/-- `Item.title` -/
def Item.title (db : UnicodeDb) (it : Item) : Text :=
  let t := strip (dropStars it.text)
  match milestoneRe t with
  | some (_, rest) => if wordEnds db rest then t else it.milestone ++ ": ".toList ++ t
  | none => it.milestone ++ ": ".toList ++ t

/-- `Board` -/
structure Board where
  lines : List Text
  items : List Item
  rows : Dict Text (List Text)

/-! ## Reading -/

/-- What `parse` refuses, with the index of the line it names. -/
inductive ParseFail where
  | rowCells (line : ℕ) (row : Text)
  | outside (line : ℕ)
  | manyTags (line : ℕ)
  | unknownOwner (line : ℕ) (owner : Text)
  | duplicate (line number other : ℕ)
deriving DecidableEq

/-- The text of the `Fail`. -/
def ParseFail.message : ParseFail → Text
  | .rowCells i row => place i ++ "table row needs 6 cells: ".toList ++ row
  | .outside i => place i ++ "checkbox outside an `## M<n>` section".toList
  | .manyTags i => place i ++ "more than one issue tag on one item".toList
  | .unknownOwner i owner =>
      place i ++ "unknown owner @".toList ++ owner ++ " (known: @".toList ++ Person.camden.key ++
        ", @".toList ++ Person.lance.key ++ ")".toList
  | .duplicate i number other =>
      place i ++ "issue #".toList ++ natText number ++ " is also on line ".toList ++
        natText (other + 1)
where
  /-- `milestones.md:{i+1}: ` -/
  place (i : ℕ) : Text := "milestones.md:".toList ++ natText (i + 1) ++ ": ".toList

/-- What the loop of `parse` has found so far. -/
structure ParseState where
  sect : Option Text := none
  inTable : Bool := false
  rows : Dict Text (List Text) := .empty
  items : List Item := []

/-- The cells of a table row. -/
def tableCells (line : Text) : List Text := ((stripChar '|' (strip line)).splitOn '|').map strip

/-- The markers and rows of the table. -/
def parseTable (i : ℕ) (line : Text) (st : ParseState) : Except ParseFail ParseState :=
  if strip line = tableOpen then .ok { st with inTable := true }
  else if strip line = tableClose then .ok { st with inTable := false }
  else if st.inTable && (rowRe line).isSome then
    let cells := tableCells line
    if cells.length ≠ 6 then .error (.rowCells i line)
    else .ok { st with rows := st.rows.insert (cells.headD []) cells }
  else .ok st

/-- The headings. -/
def parseSection (db : UnicodeDb) (line : Text) (st : ParseState) : ParseState :=
  if ['#', '#', ' '].isPrefixOf line then { st with sect := sectionRe db line } else st

/-- A line that continues an item. -/
def isMore (line : Text) : Bool := [' ', ' '].isPrefixOf line && strip line != []

/-- The owner, the slug and the words of an item whose tag is gone. -/
def readWords (db : UnicodeDb) (i : ℕ) (raw : Text) :
    Except ParseFail (Option Person × Option Text × Text) :=
  let (owners, rest) := scanOwners db none 0 raw
  match owners.find? fun o => (personOf o).isNone with
  | some o => .error (.unknownOwner i o)
  | none =>
      let raw := strip rest
      let owner := owners.head?.bind personOf
      match slugSearch raw with
      | some (before, slug) => .ok (owner, some slug, squeeze (rstrip before))
      | none => .ok (owner, none, squeeze raw)

/-- The item that starts on line `i` and goes on over the lines `more`. -/
def readItem (db : UnicodeDb) (i : ℕ) (sect : Option Text) (mark : Char) (body : Text)
    (more : List Text) : Except ParseFail Item :=
  match sect with
  | none => .error (.outside i)
  | some milestone =>
      let (tags, raw) := scanTags db 0 ([' '].intercalate (body :: more.map strip))
      if tags.length > 1 then .error (.manyTags i)
      else
        match readWords db i (strip raw) with
        | .error e => .error e
        | .ok (owner, slug, text) =>
            .ok
              { milestone := milestone
                checked := mark != ' '
                text := text
                slug := slug
                owner := owner
                number := tags.head?.map (intOf db)
                first := i
                last := i + more.length }

/-- The loop of `parse` from line `i` on. The second number is how many lines
the item before still covers. -/
def parseLines (db : UnicodeDb) : ℕ → ℕ → List Text → ParseState → Except ParseFail ParseState
  | _, _, [], st => .ok st
  | i, skip + 1, _ :: rest, st => parseLines db (i + 1) skip rest st
  | i, 0, line :: rest, st =>
      match parseTable i line st with
      | .error e => .error e
      | .ok st =>
          let st := parseSection db line st
          match itemRe line with
          | none => parseLines db (i + 1) 0 rest st
          | some (mark, body) =>
              let more := rest.takeWhile isMore
              match readItem db i st.sect mark body more with
              | .error e => .error e
              | .ok item =>
                  parseLines db (i + 1) more.length rest { st with items := st.items ++ [item] }

/-- The loop over `seen`. -/
def checkSeen : Dict ℕ ℕ → List Item → Except ParseFail Unit
  | _, [] => .ok ()
  | seen, it :: items =>
      match it.number with
      | none => checkSeen seen items
      | some n =>
          match seen.get? n with
          | some line => .error (.duplicate it.first n line)
          | none => checkSeen (seen.insert n it.first) items

/-- `parse` -/
def parse (db : UnicodeDb) (text : Text) : Except ParseFail Board :=
  match parseLines db 0 0 (splitLines text) {} with
  | .error e => .error e
  | .ok st =>
      match checkSeen .empty st.items with
      | .error e => .error e
      | .ok () => .ok { lines := splitLines text, items := st.items, rows := st.rows }

/-! ## Writing -/

/-- The Progress cell of a milestone. -/
def progress (items : List Item) (ms : Text) : Text :=
  let mine := items.filter (·.milestone = ms)
  let done := (mine.filter (·.checked)).length
  let icon := if done = mine.length then '✅' else if done ≠ 0 then '🟡' else '⬜'
  if mine = [] then ['—'] else icon :: ' ' :: (natText done ++ '/' :: natText mine.length)

/-- A table row. -/
def rowText (cells : List Text) : Text :=
  ['|', ' '] ++ [' ', '|', ' '].intercalate cells ++ [' ', '|']

/-- One line as `render` writes it. -/
def renderLine (b : Board) (inTable : Bool) (line : Text) : Text :=
  match (if inTable then rowRe line else none) with
  | none => line
  | some ms =>
      match b.rows.get? ms with
      | none => line
      | some cells => rowText (cells.take 5 ++ [progress b.items ms])

/-- `in_table` of `render` at a line. -/
def tableNow (line : Text) (inTable : Bool) : Bool :=
  if strip line = tableOpen ∨ strip line = tableClose then strip line == tableOpen else inTable

/-- The loop of `render`. -/
def renderLines (b : Board) : Bool → List Text → List Text
  | _, [] => []
  | inTable, line :: lines =>
      renderLine b (tableNow line inTable) line :: renderLines b (tableNow line inTable) lines

/-- `render` -/
def render (b : Board) : Text := joinLines (renderLines b false b.lines)

/-- The tag of an issue. -/
def tagText (number : ℕ) : Text :=
  ['<', '!', '-', '-', ' ', '#'] ++ natText number ++ [' ', '-', '-', '>']

/-- An item one line further down. -/
def Item.down (it : Item) : Item := { it with first := it.first + 1, last := it.last + 1 }

/-- `set_tag` for the item at index `k`. -/
def setTag (b : Board) (k number : ℕ) : Board :=
  match b.items[k]? with
  | none => b
  | some it =>
      let line := b.lines.getD it.last []
      if line.length + 1 + (tagText number).length ≤ wrap then
        { b with
          lines := b.lines.set it.last (line ++ ' ' :: tagText number)
          items := b.items.set k { it with number := some number } }
      else
        { b with
          lines := b.lines.insertIdx (it.last + 1) ([' ', ' ', ' ', ' ', ' ', ' '] ++ tagText number)
          items := (b.items.map fun other => if it.last < other.first then other.down else other).set k
            { it with last := it.last + 1, number := some number } }

/-- `set_checked` for the item at index `k`. -/
def setChecked (b : Board) (k : ℕ) : Board :=
  match b.items[k]? with
  | none => b
  | some it =>
      { b with
        lines := b.lines.set it.first
          (replaceFirst ['-', ' ', '[', ' ', ']'] ['-', ' ', '[', 'x', ']'] (b.lines.getD it.first []))
        items := b.items.set k { it with checked := true } }

end Carwatch.BoardSync
