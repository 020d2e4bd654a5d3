import EbbrtContrib.Argv

namespace EbbrtContrib.Tokenizer

open CString Argv

inductive Phase
  | between
  | word
  | wordEsc
  | closed
  | raw
  | rawEsc
  | cooked
  | cookedEsc
  deriving DecidableEq, Repr

/-- The quoting grammar read one byte at a time. `lexeme` is the source text of
the token under way and `token` the bytes it stands for so far. -/
structure Lexer where
  phase : Phase
  lexeme : List Byte
  token : List Byte
  tokens : List (List Byte)
  deriving DecidableEq, Repr

def Lexer.start : Lexer := ⟨.between, [], [], []⟩

/-- Take the source text `s` into the token, which it extends by `bs`. -/
def Lexer.take (l : Lexer) (p : Phase) (s bs : List Byte) : Lexer :=
  { l with phase := p, lexeme := l.lexeme ++ s, token := l.token ++ bs }

def Lexer.unquoted (l : Lexer) (c : Byte) : Lexer :=
  if c = bslash then l.take .wordEsc [c] []
  else if c = squote then l.take .raw [c] []
  else if c = dquote then l.take .cooked [c] []
  else if isSeparator c then ⟨.between, [], [], l.tokens ++ [l.token]⟩
  else l.take .word [c] [c]

def Lexer.step (l : Lexer) (c : Byte) : Lexer :=
  match l.phase with
  | .between => if isspace c then l else l.unquoted c
  | .word | .closed => l.unquoted c
  | .wordEsc => l.take .word [c] [c]
  | .raw =>
    if c = squote then l.take .closed [c] []
    else if c = bslash then l.take .rawEsc [c] []
    else l.take .raw [c] [c]
  | .rawEsc => l.take .raw [c] (if c = bslash ∨ c = squote then [c] else [bslash, c])
  | .cooked =>
    if c = dquote then l.take .closed [c] []
    else if c = bslash then l.take .cookedEsc [c] []
    else l.take .cooked [c] [c]
  | .cookedEsc => l.take .cooked [c] [controlChar c]

def Lexer.read (l : Lexer) (s : List Byte) : Lexer := s.foldl Lexer.step l

def lex (s : List Byte) : Lexer := Lexer.start.read s

/-- Inside a quotation, so that the end of the input leaves it unbalanced. -/
def Phase.quoted : Phase → Bool
  | .raw | .rawEsc | .cooked | .cookedEsc => true
  | .between | .word | .wordEsc | .closed => false

/-- The tokens of a whole input; `none` when a quotation is left open. -/
def tokenize (s : List Byte) : Option (List (List Byte)) :=
  let l := lex s
  match l.phase with
  | .between => some l.tokens
  | .word | .wordEsc | .closed => some (l.tokens ++ [l.token])
  | .raw | .rawEsc | .cooked | .cookedEsc => none

@[simp] theorem Lexer.read_nil (l : Lexer) : l.read [] = l := rfl

@[simp] theorem Lexer.read_cons (l : Lexer) (c : Byte) (s : List Byte) :
    l.read (c :: s) = (l.step c).read s := rfl

@[simp] theorem Lexer.take_phase (l : Lexer) (p : Phase) (s bs : List Byte) :
    (l.take p s bs).phase = p := rfl

@[simp] theorem Lexer.take_take (l : Lexer) (p q : Phase) (s bs s' bs' : List Byte) :
    (l.take p s bs).take q s' bs' = l.take q (s ++ s') (bs ++ bs') := by
  simp [Lexer.take]

theorem Lexer.step_wordEsc (l : Lexer) (s bs : List Byte) (c : Byte) :
    (l.take .wordEsc s bs).step c = l.take .word (s ++ [c]) (bs ++ [c]) := by
  rw [← Lexer.take_take]
  rfl

theorem Lexer.read_append (l : Lexer) (s t : List Byte) : l.read (s ++ t) = (l.read s).read t := by
  simp only [Lexer.read, List.foldl_append]

end EbbrtContrib.Tokenizer
