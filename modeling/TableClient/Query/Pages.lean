import TableClient.Query.Builder

/-!
# Results page by page

The results of a query or scan, fetched a page at a time when an item is asked for and none is at
hand. A limit counts over all pages. An empty page ends the results, except that the first page
may be empty and still be followed by others, since a filter may match nothing there.
-/

namespace TableClient

/-- The results of a query or scan that are still to come. -/
structure Pages where
  request : PageRequest
  /-- The items at hand. -/
  items : List AttributeMap := []
  /-- The key to go on from, if there may be more pages. -/
  lastKey : Option AttributeMap := none
  /-- The limit over all pages. -/
  limit : Option UInt64
  /-- The number of items kept so far. -/
  fetched : Nat := 0
deriving DecidableEq

namespace PageRequest

/-- The request for a page that starts behind a key and has at most `limit` items. -/
def toRequest (request : PageRequest) (startKey : Option AttributeMap) (limit : Option UInt64) :
    Request :=
  match request with
  | .query input => .query { input with startKey, limit }
  | .scan input => .scan { input with startKey, limit }

/-- What the request is for. -/
def activity : PageRequest → Activity
  | .query _ => .query
  | .scan _ => .scan

/-- The limit of the planned request. -/
def limit : PageRequest → Option UInt64
  | .query input => input.limit
  | .scan input => input.limit

end PageRequest

namespace Pages

/-- The number of items that may still be kept, if there is a limit. -/
def remaining (pages : Pages) : Option Nat := pages.limit.map fun limit => limit.toNat - pages.fetched

/-- Takes a page that was asked for with `startKey`. -/
def receive (pages : Pages) (startKey : Option AttributeMap) (page : Protocol.Page) : Pages :=
  let items :=
    match pages.remaining with
    | some remaining => page.items.take remaining
    | none => page.items
  { pages with
    items := pages.items ++ items
    lastKey := if startKey.isSome && items.isEmpty then none else page.lastKey
    fetched := pages.fetched + items.length }

/-- Asks for the page behind `startKey`. The results are left as they are when that fails. -/
def fetch (pages : Pages) (startKey : Option AttributeMap) :
    Exchange (Except Error Unit × Pages) :=
  .call pages.request.activity
    (pages.request.toRequest startKey (pages.remaining.map UInt64.ofNat)) Protocol.Page
    fun
      | .ok page => (.ok (), pages.receive startKey page)
      | .error error => (.error error, pages)

/-- Whether there is another item; asks for a page when none is at hand. The key to go on from is
    used up by asking, also when the request fails. -/
def hasNext (pages : Pages) : Exchange (Except Error Bool × Pages) :=
  if !pages.items.isEmpty then .done (.ok true, pages)
  else if pages.lastKey.isNone || pages.remaining == some 0 then .done (.ok false, pages)
  else
    (fetch { pages with lastKey := none } pages.lastKey).map fun
      | (.ok (), pages) => (.ok !pages.items.isEmpty, pages)
      | (.error error, pages) => (.error error, pages)

/-- Takes the item at the front, if there is one. -/
def pop (pages : Pages) : Except Error AttributeMap × Pages :=
  match pages.items with
  | item :: items => (.ok item, { pages with items })
  | [] => (.error (.query .noMoreItems), pages)

/-- Takes the next item. -/
def next (pages : Pages) : Exchange (Except Error AttributeMap × Pages) :=
  pages.hasNext.map fun
    | (.ok true, pages) => pages.pop
    | (.ok false, pages) => (.error (.query .noMoreItems), pages)
    | (.error error, pages) => (.error error, pages)

/-- Takes the next item and drops it. -/
def advance (pages : Pages) : Exchange (Except Error Unit × Pages) :=
  pages.next.map fun (outcome, pages) => (outcome.map fun _ => (), pages)

/-- Takes the next item as an item of a type. -/
def nextAs (pages : Pages) (type : ItemType) : Exchange (Except Error Json × Pages) :=
  pages.next.map fun (outcome, pages) =>
    (outcome.bind fun item => (type.decode item).mapError .codec, pages)

/-- Takes all items that are left as items of a type; the state holds those taken so far. -/
def collect (type : ItemType) : Conversation (Pages × List Json) (Except Error (List Json)) :=
  fun (pages, taken) =>
    pages.hasNext.map fun
      | (.error error, _) => .done (.error error)
      | (.ok false, _) => .done (.ok taken)
      | (.ok true, pages) =>
        match pages.pop with
        | (.error error, _) => .done (.error error)
        | (.ok item, pages) =>
          match type.decode item with
          | .ok document => .again (pages, taken ++ [document])
          | .error error => .done (.error (.codec error))

end Pages

namespace Query

/-- Asks for the first page of the results. -/
def run (query : Query) : Exchange (Except Error Pages) :=
  match query.plan with
  | .error error => .done (.error error)
  | .ok request =>
    (Pages.fetch { request, limit := query.limit } none).map fun (outcome, pages) =>
      outcome.map fun () => pages

end Query

end TableClient
