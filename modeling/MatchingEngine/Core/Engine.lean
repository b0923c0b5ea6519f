import MatchingEngine.Core.Book
import MatchingEngine.Lib.Run

/-!
# The engine

`core::engine`: one command in, a list of events out. `BookUpdate` comes last, once,
exactly when the command moved the top of book.
-/

namespace MatchingEngine

/-- `Engine`: the book behind the commands. -/
structure Engine where
  book : Book

namespace Engine

def new : Engine := ⟨.new⟩

/-- What a command does to the book, and the events it emits. -/
def dispatch (P : Profile) (b : Book) : Command → Except Panic (Book × List Event)
  | .newOrder accountId orderId side price qty kind tif _ =>
    match kind with
    | .market => b.submitMarket P accountId orderId side qty
    | .limit =>
      match tif with
      | .gtc => b.submitGtc P accountId orderId side price qty
      | .ioc => b.submitIoc P accountId orderId side price qty
      | .fok => b.submitFok P accountId orderId side price qty
      | .postOnly => b.submitPostonly P accountId orderId side price qty
  | .cancelOrder accountId orderId => b.cancel P accountId orderId
  | .cancelReplace accountId orderId newPrice newQty => b.modify P accountId orderId newPrice newQty
  | .massCancel accountId => b.massCancel P accountId
  | .snapshot => do pure (b, ← b.snapshot P)
  | .killSwitch _ => .ok (b, [])

/-- `apply`: dispatch, then an update if the touch has changed. -/
def apply (P : Profile) (e : Engine) (cmd : Command) : Except Panic (Engine × List Event) := do
  let before := e.book.topOfBook
  let (book, evs) ← dispatch P e.book cmd
  let after := book.topOfBook
  pure (⟨book⟩, if before ≠ after then evs ++ [.bookUpdate after.1 after.2] else evs)

/-- Commands applied one by one; the events of each are kept apart. -/
def runFrom (P : Profile) (e : Engine) (cmds : List Command) : Except Panic (Engine × List (List Event)) :=
  run (apply P) e cmds

end Engine

end MatchingEngine
