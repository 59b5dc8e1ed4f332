import PacketSmith.Fault

/-!
# The grammar of a command line

*Names.* A name may be cut short as long as it stays unique. An argument follows its option as a word of its own, or
in the same word after an equals sign. After a name of one dash and one letter it may follow at once, and such options
that take no argument may be joined: `-dt` is `-d -t`.

*Words that are no options.* A single dash, a negative number and a word with a blank are arguments unless they name
an option. After the word `--` all words are arguments.

*Reading.* All words are sorted first, so a name that is not unique is an error whatever the other words say. Then
the options act in their order.
-/

namespace PacketSmith.CommandLine

inductive Arity where
  | none
  | one
  | atMostOne
deriving DecidableEq

structure OptionSpec (σ : Type) where
  names : List String
  arity : Arity
  act : Option String → σ → Except Fault σ

structure Grammar (σ : Type) where
  options : List (OptionSpec σ)
  argument : Option (String → σ → σ)

def usage : Fault := .exit 2

inductive Word (σ : Type) where
  | dashes
  | argument (s : String)
  | option (o : OptionSpec σ) (name : String) (inside : Option String)
  | unknown

variable {σ : Type}

namespace Grammar

def names (g : Grammar σ) : List (String × OptionSpec σ) :=
  g.options.flatMap fun o => o.names.map fun name => (name, o)

def find? (g : Grammar σ) (name : String) : Option (OptionSpec σ) := g.names.lookup name

def cut (word : String) : String × Option String :=
  let cs := word.toList
  match cs.dropWhile (· != '=') with
  | _ :: rest => (String.ofList (cs.takeWhile (· != '=')), some (String.ofList rest))
  | [] => (word, none)

def candidates (g : Grammar σ) (word : String) : List (Word σ) :=
  if Text.startsWith word "--" then
    let (start, inside) := cut word
    g.names.filterMap fun (name, o) =>
      if Text.startsWith name start then some (.option o name inside) else none
  else
    let letter := String.ofList (word.toList.take 2)
    let rest := String.ofList (word.toList.drop 2)
    g.names.filterMap fun (name, o) =>
      if name == letter then some (.option o name (some rest))
      else if Text.startsWith name word then some (.option o name none)
      else none

def isNegative (word : String) : Bool :=
  match word.toList with
  | '-' :: cs =>
    match cs.dropWhile Char.isDigit with
    | [] => !cs.isEmpty
    | '.' :: fraction => !fraction.isEmpty && fraction.all Char.isDigit
    | _ => false
  | _ => false

def sort (g : Grammar σ) (word : String) : Except Fault (Word σ) :=
  if !Text.startsWith word "-" then .ok (.argument word)
  else match g.find? word with
    | some o => .ok (.option o word none)
    | none =>
      if word == "-" then .ok (.argument word)
      else
        let (start, inside) := cut word
        match inside, g.find? start with
        | some inside, some o => .ok (.option o start (some inside))
        | _, _ =>
          match g.candidates word with
          | [w] => .ok w
          | _ :: _ :: _ => .error usage
          | [] =>
            if isNegative word || word.toList.contains ' ' then .ok (.argument word)
            else .ok .unknown

def sortAll (g : Grammar σ) : List String → Except Fault (List (Word σ))
  | [] => .ok []
  | "--" :: rest => .ok (.dashes :: rest.map .argument)
  | word :: rest => do
    let w ← g.sort word
    return w :: (← g.sortAll rest)

def joined (g : Grammar σ) (o : OptionSpec σ) (dashes : Bool) :
    List Char → Except Fault (List (OptionSpec σ) × OptionSpec σ × Option String)
  | [] => if o.arity = .none then .error usage else .ok ([], o, some "")
  | c :: cs =>
    if o.arity ≠ .none then .ok ([], o, some (String.ofList (c :: cs)))
    else if dashes then .error usage
    else match g.find? ("-".push c) with
      | none => .error usage
      | some next =>
        if cs.isEmpty then .ok ([o], next, none)
        else do
          let (before, last, inside) ← g.joined next (c == '-') cs
          return (o :: before, last, inside)

end Grammar

structure Reading (σ : Type) where
  value : σ
  taken : Bool := false
  stray : Bool := false

namespace Reading

def take (g : Grammar σ) (s : String) (r : Reading σ) : Reading σ :=
  match g.argument with
  | some act => if r.taken then { r with stray := true } else { r with value := act s r.value, taken := true }
  | none => { r with stray := true }

def act (r : Reading σ) (o : OptionSpec σ) (argument : Option String) : Except Fault (Reading σ) := do
  return { r with value := ← o.act argument r.value }

def actAll (r : Reading σ) : List (OptionSpec σ) → Except Fault (Reading σ)
  | [] => .ok r
  | o :: rest => do (← r.act o none).actAll rest

def words (g : Grammar σ) (ws : List (Word σ)) (r : Reading σ) : Except Fault (Reading σ) :=
  match ws, r with
  | [], r => .ok r
  | .unknown :: rest, r => words g rest { r with stray := true }
  | .argument s :: .dashes :: rest, r =>
    words g rest { r.take g s with stray := r.stray || r.taken || g.argument.isNone }
  | .argument s :: rest, r => words g rest (r.take g s)
  | .dashes :: .argument s :: rest, r => words g rest (r.take g s)
  | .dashes :: rest, r => words g rest { r with stray := true }
  | .option o name inside :: rest, r => do
    let (before, last, inside) ← split o name inside
    match rest with
    | .argument s :: rest' =>
      if inside.isNone && last.arity ≠ .none then words g rest' (← (← r.actAll before).act last (some s))
      else words g (.argument s :: rest') (← (← r.actAll before).act last inside)
    | rest =>
      if inside.isNone && last.arity = .one then throw usage
      else words g rest (← (← r.actAll before).act last inside)
termination_by ws.length
where
  split (o : OptionSpec σ) (name : String) (inside : Option String) :
      Except Fault (List (OptionSpec σ) × OptionSpec σ × Option String) :=
    match inside with
    | none => .ok ([], o, none)
    | some s => g.joined o (Text.startsWith name "--") s.toList

end Reading

def Grammar.read (g : Grammar σ) (start : σ) (line : List String) : Except Fault σ := do
  let r ← Reading.words g (← g.sortAll line) { value := start }
  if r.stray || (g.argument.isSome && !r.taken) then throw usage
  return r.value

end PacketSmith.CommandLine
