/-!
# TailLisp.Run.Native

**Names that running programs start with**: the library that compiled code and programs use, and
the few functions and types of the target language that are available beside it.
-/

namespace TailLisp

/-- The functions of the library. -/
inductive LibraryFn where
  | seq
  | nth
  | subseq
  | lookup
  | first
  | rest
  | count
  | isEmpty
  | conj
  | vector
  | hashMap
  | get
  | inc
  | dec
  | println
  deriving DecidableEq, Repr

/-- Functions of the target language. -/
inductive BuiltinFn where
  | abs
  | iter
  | len
  | max
  | min
  | sum
  deriving DecidableEq, Repr

/-- Types that can be called to make a value. -/
inductive TypeName where
  | int
  | list
  | map
  | range
  | str
  | tuple
  | keyword
  | symbol
  deriving DecidableEq, Repr

/-- Methods of values. -/
inductive Method where
  | upper
  | append
  deriving DecidableEq, Repr

/-- A method together with the value it was taken from, a list by its place. -/
inductive Bound where
  | upper (text : String)
  | append (list : Nat)
  deriving DecidableEq, Repr

/-- What can be called and is not written in the program. -/
inductive Native where
  | library (fn : LibraryFn)
  | builtin (fn : BuiltinFn)
  | type (type : TypeName)
  | method (method : Method)
  deriving DecidableEq, Repr

namespace LibraryFn

/-- All functions of the library. -/
def all : List LibraryFn :=
  [.seq, .nth, .subseq, .lookup, .first, .rest, .count, .isEmpty, .conj, .vector, .hashMap,
   .get, .inc, .dec, .println]

/-- The name of a function in target code. -/
def name : LibraryFn → String
  | .seq => "seq"
  | .nth => "nth"
  | .subseq => "subseq"
  | .lookup => "lookup"
  | .first => "first"
  | .rest => "rest"
  | .count => "count"
  | .isEmpty => "empty_q"
  | .conj => "conj"
  | .vector => "vector"
  | .hashMap => "hash_map"
  | .get => "get"
  | .inc => "inc"
  | .dec => "dec"
  | .println => "println"

/-- The documentation of a function. -/
def doc : LibraryFn → Option String
  | .seq => some ("\n    Return coll in a form that can be indexed more than once.\n\n" ++
      "    nil, sequences and values that are not iterable come back unchanged;\n" ++
      "    any other iterable (a generator, map, iter(...)) is realized into a\n    tuple.\n    ")
  | .nth => some ("\n    Return the element at index, or default when coll is too short, " ++
      "nil or\n    not a collection at all.\n    ")
  | .subseq => some ("\n    Return the contiguous elements of coll from start onwards.\n\n" ++
      "    Sequences are sliced, so a tuple yields a tuple and a list a list.\n" ++
      "    Other iterables are realized into a tuple.\n    ")
  | .lookup => some ("\n    Look key up in table, calling default() only on a miss.\n\n" ++
      "    table may be a mapping, or an association list: a sequence of\n" ++
      "    (key, value) pairs, searched front to back. Anything else misses.\n" ++
      "    default is a zero-argument callable (the compiled :or expression) or None.\n    ")
  | .first => some "Return the first element of a collection, or nil."
  | .rest => some "Return everything after the first element."
  | .count => some "Return the number of items in a collection (nil counts as 0)."
  | .isEmpty => some "True when coll is nil or has no elements."
  | .conj => some "Return a new list or tuple with items appended."
  | .hashMap => some "Build a dict from alternating keys and values."
  | .get => some "Get a value from a mapping, association list or sequence by key."
  | .vector | .inc | .dec | .println => none

/-- The parameters of a function. -/
structure Signature where
  /-- Parameters that have to be given. -/
  required : List String := []
  /-- How many more may be given. -/
  optional : Nat := 0
  /-- Is any number of arguments accepted? -/
  anyNumber : Bool := false

/-- The signature of a function. -/
def signature : LibraryFn → Signature
  | .seq | .first | .rest | .count | .isEmpty => { required := ["coll"] }
  | .nth => { required := ["coll", "index"], optional := 1 }
  | .subseq => { required := ["coll", "start"] }
  | .lookup => { required := ["table", "key"], optional := 1 }
  | .conj => { required := ["coll"], anyNumber := true }
  | .vector | .hashMap | .println => { anyNumber := true }
  | .get => { required := ["coll", "key"], optional := 1 }
  | .inc | .dec => { required := ["x"] }

end LibraryFn

namespace BuiltinFn

/-- The name of a function. -/
def name : BuiltinFn → String
  | .abs => "abs"
  | .iter => "iter"
  | .len => "len"
  | .max => "max"
  | .min => "min"
  | .sum => "sum"

end BuiltinFn

namespace TypeName

/-- The name of a type. -/
def name : TypeName → String
  | .int => "int"
  | .list => "list"
  | .map => "map"
  | .range => "range"
  | .str => "str"
  | .tuple => "tuple"
  | .keyword => "Keyword"
  | .symbol => "Symbol"

/-- The text of a type. -/
def text : TypeName → String
  | .keyword => "<class 'letloop.runtime.types.Keyword'>"
  | .symbol => "<class 'letloop.runtime.types.Symbol'>"
  | t => "<class '" ++ t.name ++ "'>"

end TypeName

namespace Method

/-- The name of a method. -/
def name : Method → String
  | .upper => "upper"
  | .append => "append"

/-- The type whose values have the method. -/
def owner : Method → TypeName
  | .upper => .str
  | .append => .list

/-- The name of a method after that of its type. -/
def fullName (method : Method) : String := method.owner.name ++ "." ++ method.name

end Method

namespace Native

/-- The names that a program can use from the start and assign as its own. -/
def installed : List (String × Native) :=
  [("Symbol", .type .symbol), ("Keyword", .type .keyword)]
    ++ LibraryFn.all.map fun fn => (fn.name, .library fn)

/-- The names that are found when a program does not define them. -/
def builtins : List (String × Native) :=
  [("abs", .builtin .abs), ("int", .type .int), ("iter", .builtin .iter), ("len", .builtin .len),
   ("list", .type .list), ("map", .type .map), ("max", .builtin .max), ("min", .builtin .min),
   ("range", .type .range), ("str", .type .str), ("sum", .builtin .sum), ("tuple", .type .tuple)]

/-- The kind of thing that something callable is. -/
def kind : Native → String
  | .library _ => "function"
  | .builtin _ => "builtin_function_or_method"
  | .type _ => "type"
  | .method _ => "method_descriptor"

/-- The text of something callable. -/
def text : Native → String
  | .library fn => "<function " ++ fn.name ++ ">"
  | .builtin fn => "<built-in function " ++ fn.name ++ ">"
  | .type t => t.text
  | .method m => "<method '" ++ m.name ++ "' of '" ++ m.owner.name ++ "' objects>"

end Native

end TailLisp
