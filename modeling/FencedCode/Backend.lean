import FencedCode.Loader
import FencedCode.Placement

namespace FencedCode

structure Backend (σ : Type) where
  tokenizer : Tokenizer σ
  state : σ
  loader : Loader := {}

namespace Backend

variable {σ : Type}

def ensure (b : Backend σ) (language : String) : Availability × Backend σ :=
  let (a, state, loader) := Loader.ensure b.tokenizer b.state b.loader language
  (a, { b with state, loader })

/-- The loads of the chosen languages come to an end, oldest first, each as `finish` says. -/
def settle (b : Backend σ) (chosen : String → Bool) (finish : σ → String → σ × LoadResult) :
    Backend σ :=
  (b.loader.tickets.filter chosen).foldl
    (fun b id =>
      let (state, result) := finish b.state id
      { b with state, loader := b.loader.complete id result }) b

/-- The decorations of one block in a theme. There are none for a language that is unknown or not
loaded yet, nor when tokenizing fails. -/
def render (b : Backend σ) (theme : String) (h : Host) (block : Block) :
    List Decoration × Backend σ :=
  if block.bodyStart < block.bodyStop then
    match b.ensure block.language with
    | (.ready id, b) =>
      let (state, result) := b.tokenizer.tokenize b.state (h.document.slice block.body) id theme
      match result with
      | .ok lines => (h.place block lines, { b with state })
      | .error _ => ([], { b with state })
    | (_, b) => ([], b)
  else ([], b)

def renderAll (b : Backend σ) (theme : String) (h : Host) : List Block → List Decoration × Backend σ
  | [] => ([], b)
  | block :: blocks =>
    let (ds, b) := b.render theme h block
    let (es, b) := renderAll b theme h blocks
    (ds ++ es, b)

end Backend

end FencedCode
