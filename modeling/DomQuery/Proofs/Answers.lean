import DomQuery.CommandLine.Run
import DomQuery.Proofs.Loading

/-!
# Answers to Queries

What a query answers, over all selectors and all documents.

A query can go wrong in two places, and the selector comes first. A selector
that is none is answered before the document is looked at, so the answer tells
nothing about the document. A document that is none is answered with nothing on
the first stream either. Only where both are sound there is a search, and then
the first stream has the paths of the matches and nothing else.

The search for the first match alone is a loop of its own, which stops early and
keeps its own memo. That it finds the first of all matches is a fact about
searching (`SelectorList.queryFirst?_eq_head?`), and what is left to be said here
is that it shows: the lines that are written are the lines of all matches, cut
off behind the first. A line is never empty, so there is something on the first
stream exactly if there is a match, and that is what the exit code tells.

## Theorems

* `CommandLine.pathLines_eq_join`, `CommandLine.pathLines_eq_empty_iff`: The lines of
  matches.
* `CommandLine.matchesIn_first`: The first match and all matches.
* `CommandLine.code_eq_zero_iff`: The exit code and the first stream.
* `query_answers`: What a query answers.
-/

namespace DomQuery

namespace CommandLine

variable {p : Palette} {t : Tree} {found : List NodeId} {list : SelectorList}
  {contents : Contents} {path selector : String} {first : Bool}

/-- The path of each match with a line feed behind it. -/
theorem pathLines_eq_join (p : Palette) (t : Tree) (found : List NodeId) :
    pathLines p t found = String.join (found.map fun n => t.elementPath p n ++ "\n") := by
  rw [pathLines, ← String.toList_inj, String.toList_ofList, String.toList_join, List.flatMap_map]
  refine congrArg (List.flatMap · found) (funext fun n => ?_)
  rw [String.toList_append, Tree.elementPath, String.toList_ofList]
  rfl

theorem pathLines_eq_empty_iff : pathLines p t found = "" ↔ found = [] := by
  constructor
  · intro h
    cases found with
    | nil => rfl
    | cons n found =>
        -- There is a line feed at least.
        have hchars := congrArg String.toList h
        rw [pathLines, String.toList_ofList, List.flatMap_cons, String.toList_empty] at hchars
        simp at hchars
  · rintro rfl
    rfl

/-- The first match is the first of all matches. -/
theorem matchesIn_first (t : Tree) (list : SelectorList) :
    matchesIn t list true = (matchesIn t list false).take 1 := by
  rw [matchesIn, matchesIn, if_pos rfl, if_neg Bool.false_ne_true, List.take_one,
    list.queryFirst?_eq_head?]

/-- A file that holds a text is loaded as the text. -/
theorem loadTree_toUTF8 (text : String) :
    loadTree (.ok text.toUTF8) = (Document.load text).mapError .unsound := by
  have hread : String.fromUTF8? text.toUTF8 = some text := dif_pos text.isValidUTF8
  simp only [loadTree, hread]

theorem answer_of_parse_error {e : SyntaxError} (h : SelectorList.parse selector = .error e) :
    answer p contents (.query path selector first) = syntaxFailure p selector e := by
  rw [answer, runQuery, h]

theorem answer_of_loadTree_error {e : LoadFailure} (hlist : SelectorList.parse selector = .ok list)
    (h : loadTree contents = .error e) :
    answer p contents (.query path selector first) = failure p "" (e.message path) := by
  rw [answer, runQuery, hlist]
  simp only [h]

theorem answer_of_loadTree (hlist : SelectorList.parse selector = .ok list)
    (h : loadTree contents = .ok t) :
    answer p contents (.query path selector first) =
      ⟨if (matchesIn t list first).isEmpty then 1 else 0, pathLines p t (matchesIn t list first),
        ""⟩ := by
  rw [answer, runQuery, hlist]
  simp only [h]

/-- The exit code is zero exactly if there is something on the first stream. -/
theorem code_eq_zero_iff :
    (answer p contents (.query path selector first)).code = 0 ↔
      (answer p contents (.query path selector first)).stdout ≠ "" := by
  rcases hlist : SelectorList.parse selector with e | list
  · rw [answer_of_parse_error hlist]
    exact ⟨fun h => absurd h Nat.one_ne_zero, fun h => absurd rfl h⟩
  · rcases hload : loadTree contents with e | t
    · rw [answer_of_loadTree_error hlist hload]
      exact ⟨fun h => absurd h Nat.one_ne_zero, fun h => absurd rfl h⟩
    · rw [answer_of_loadTree hlist hload, Ne, pathLines_eq_empty_iff]
      cases matchesIn t list first with
      | nil => exact ⟨fun h => absurd h Nat.one_ne_zero, fun h => absurd rfl h⟩
      | cons n found => exact ⟨fun _ => List.cons_ne_nil n found, fun _ => rfl⟩

end CommandLine

open CommandLine

/-- What a query answers. To a selector that is none there is one answer, whatever the
    document is and whether or not only the first match is asked for, and it has
    nothing on the first stream. Neither has the answer where the document is none.
    Otherwise the first stream has the paths of all matches in their order, a line for
    each, or the first of these lines when only the first match is asked for, and
    both have the same exit code. The exit code is always zero exactly if there is
    something on the first stream. -/
theorem query_answers (p : Palette) (selector : String) :
    (∀ e, SelectorList.parse selector = .error e →
      ∃ outcome : Outcome, outcome.code = 1 ∧ outcome.stdout = "" ∧
        ∀ contents path first, answer p contents (.query path selector first) = outcome) ∧
    (∀ list, SelectorList.parse selector = .ok list → ∀ contents path,
      (∀ e, loadTree contents = .error e → ∀ first,
        (answer p contents (.query path selector first)).code = 1 ∧
        (answer p contents (.query path selector first)).stdout = "") ∧
      ∀ t, loadTree contents = .ok t →
        (answer p contents (.query path selector false)).stdout =
          String.join ((list.queryAll t Tree.root).map fun n => t.elementPath p n ++ "\n") ∧
        (answer p contents (.query path selector true)).stdout =
          String.join (((list.queryAll t Tree.root).take 1).map fun n =>
            t.elementPath p n ++ "\n") ∧
        (answer p contents (.query path selector true)).code =
          (answer p contents (.query path selector false)).code) ∧
    ∀ contents path first,
      (answer p contents (.query path selector first)).code = 0 ↔
        (answer p contents (.query path selector first)).stdout ≠ "" := by
  refine ⟨fun e he => ⟨syntaxFailure p selector e, rfl, rfl, fun _ _ _ => answer_of_parse_error he⟩,
    fun list hlist contents path => ⟨fun e he first => ?_, fun t ht => ?_⟩,
    fun _ _ _ => code_eq_zero_iff⟩
  · rw [answer_of_loadTree_error hlist he]
    exact ⟨rfl, rfl⟩
  · have hall : matchesIn t list false = list.queryAll t Tree.root := rfl
    rw [answer_of_loadTree hlist ht, answer_of_loadTree hlist ht, matchesIn_first, hall]
    refine ⟨pathLines_eq_join p t _, pathLines_eq_join p t _, ?_⟩
    -- There is a first match if there is any.
    cases list.queryAll t Tree.root with
    | nil => rfl
    | cons n found => rfl

/-- The first match in the paragraph is the paragraph, and what is no selector is
    answered alike for it and for a file that is not there. -/
theorem paragraph_answers :
    (answer .plain (.ok "\x7b\"children\": [\".\"], \"tag\": \"p\"\x7d".toUTF8)
      (.query "doc.json" "p" true)).stdout = "p\n" ∧
    answer .plain (.ok "\x7b\"children\": [\".\"], \"tag\": \"p\"\x7d".toUTF8)
      (.query "doc.json" "p >" true) =
        answer .plain (.error .notFound) (.query "none" "p >" false) := by
  have hload : loadTree (.ok "\x7b\"children\": [\".\"], \"tag\": \"p\"\x7d".toUTF8) =
      .ok (Document.toTree [.element { tag := "p" } [.text "."]]) := by
    rw [loadTree_toUTF8, Document.load_eq_of_written paragraph_written paragraph_reads]
    rfl
  have hlist : SelectorList.parse "p" = .ok ⟨[⟨⟨[.tag "p"]⟩, []⟩]⟩ := by decide +kernel
  have herror : SelectorList.parse "p >" = .error ⟨3, .expectedSelector none⟩ := by decide +kernel
  refine ⟨?_, ?_⟩
  · rw [(((query_answers .plain "p").2.1 _ hlist _ "doc.json").2 _ hload).2.1]
    decide +kernel
  · rcases (query_answers .plain "p >").1 _ herror with ⟨outcome, _, _, houtcome⟩
    rw [houtcome, houtcome]

end DomQuery
