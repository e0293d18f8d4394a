import PhpAssist.Tree

/-!
# Shapes

What a piece of code means does not depend on the blanks and comments in it. A shape is what is
left of a tree without them: kinds of nodes, how they nest, and the tokens in order, each with its
kind and its text. Two trees with one shape are the same tree written in two ways.

The grammar reads shapes, in the sense that no rule of it looks at trivia.

## Main definitions

* `Word`: A token without its trivia.
* `Shape`: A tree without trivia.
* `Tree.shape`: The shape of a tree.
* `Shape.words`: The words of a shape from left to right.

## Theorems

* `Tree.words_shape`: The words of the shape of a tree are its tokens without trivia.
-/

namespace PhpAssist

/-- A token without its trivia. -/
structure Word where
  kind : Kind
  text : Text
  deriving DecidableEq

/-- Whether a word has a kind and a spelling, in any mixture of case. -/
def Word.isText (word : Word) (kind : Kind) (spelling : String) : Bool :=
  word.kind == kind && Text.lower word.text == Text.lower spelling.toList

theorem Word.kind_of_isText {word : Word} {kind : Kind} {spelling : String}
    (h : word.isText kind spelling = true) : word.kind = kind :=
  beq_iff_eq.mp (Bool.and_eq_true_iff.mp h).1

/-- What the grammar sees of a token. -/
def Token.word (tok : Token) : Word := ⟨tok.kind, tok.text⟩

/-- A tree without trivia. -/
inductive Shape where
  | word (word : Word)
  | node (kind : Kind) (children : List Shape)

namespace Shape

/-- The kind of a word or of a node. -/
def kind : Shape → Kind
  | .word it => it.kind
  | .node kind _ => kind

/-- The shapes right below a node. A word has none. -/
def children : Shape → List Shape
  | .word _ => []
  | .node _ children => children

mutual

/-- The words from left to right. -/
def words : Shape → List Word
  | .word it => [it]
  | .node _ children => wordsOf children

/-- The words of a row of shapes. -/
def wordsOf : List Shape → List Word
  | [] => []
  | shape :: more => shape.words ++ wordsOf more

end

@[simp] theorem wordsOf_nil : wordsOf [] = [] := rfl

@[simp] theorem wordsOf_cons (shape : Shape) (more : List Shape) :
    wordsOf (shape :: more) = shape.words ++ wordsOf more := rfl

@[simp] theorem words_word (it : Word) : (Shape.word it).words = [it] := rfl

@[simp] theorem words_node (kind : Kind) (children : List Shape) :
    (Shape.node kind children).words = wordsOf children := rfl

@[simp] theorem wordsOf_append (row more : List Shape) :
    wordsOf (row ++ more) = wordsOf row ++ wordsOf more := by
  induction row with
  | nil => rfl
  | cons shape row ih =>
    rw [List.cons_append, wordsOf_cons, ih, wordsOf_cons, List.append_assoc]

end Shape

namespace Tree

mutual

/-- The tree without its trivia. -/
def shape : Tree → Shape
  | .token tok => .word tok.word
  | .node kind children => .node kind (shapesOf children)

/-- A row of trees without their trivia. -/
def shapesOf : List Tree → List Shape
  | [] => []
  | tree :: more => tree.shape :: shapesOf more

end

theorem shapesOf_eq_map (row : List Tree) : shapesOf row = row.map shape := by
  induction row with
  | nil => rfl
  | cons tree row ih => rw [shapesOf, ih, List.map_cons]

theorem shapesOf_append (row more : List Tree) :
    shapesOf (row ++ more) = shapesOf row ++ shapesOf more := by
  simp only [shapesOf_eq_map, List.map_append]

mutual

/-- The words of the shape of a tree are its tokens without their trivia. -/
theorem words_shape (tree : Tree) : tree.shape.words = tree.tokens.map Token.word :=
  match tree with
  | .token _ => rfl
  | .node _ children => wordsOf_shapesOf children

theorem wordsOf_shapesOf (row : List Tree) :
    Shape.wordsOf (shapesOf row) = (tokensOf row).map Token.word :=
  match row with
  | [] => rfl
  | tree :: more => by
    rw [shapesOf, Shape.wordsOf_cons, words_shape tree, wordsOf_shapesOf more, tokensOf,
      List.map_append]

end

end Tree

end PhpAssist
