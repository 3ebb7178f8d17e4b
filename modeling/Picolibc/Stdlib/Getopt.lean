import Mathlib
import Picolibc.Lib.Blocks

namespace Getopt

abbrev Arg := List UInt8

inductive Ordering where
  | permute
  | returnInOrder
  | requireOrder
  deriving DecidableEq, Repr

inductive HasArg where
  | none
  | required
  | optional
  deriving DecidableEq, Repr

structure Data where
  optarg : Option Arg
  optind : Nat
  opterr : Bool
  optopt : Int
  optwhere : Nat
  permuteFrom : Nat
  numNonopts : Nat
  deriving DecidableEq, Repr

structure Call where
  ret : Int
  data : Data
  argv : List Arg
  errors : List UInt8
  deriving DecidableEq, Repr

def eof : Int := -1

def dash : UInt8 := 0x2d

def plus : UInt8 := 0x2b

def colon : UInt8 := 0x3a

def question : UInt8 := 0x3f

def equals : UInt8 := 0x3d

def endMarker : Arg := [dash,dash]

def invalidOption : List UInt8 := ": invalid option -- `-".toUTF8.toList

def argumentRequired : List UInt8 := ": argument required for option `-".toUTF8.toList

def closing : List UInt8 := "'\n".toUTF8.toList

def charValue (schar : Bool) (c : UInt8) : Int := if schar && decide (128 ≤ c.toNat) then c.toNat - 256 else c.toNat

def strchr (c : UInt8) : List UInt8 → Option (List UInt8)
  | [] => if c = 0 then some [] else none
  | x :: s => if x = c then some (x :: s) else strchr c s

def reverseArgvElements (argv : List Arg) (base num : Nat) : List Arg := Blocks.reverseSpan argv base num

def permute (argv : List Arg) (base len1 len2 : Nat) : List Arg :=
  reverseArgvElements (reverseArgvElements (reverseArgvElements argv base len1) base (len1 + len2)) base len2

def isOption (arg : Arg) : Bool := arg.getD 0 0 = dash

def nonopts (args : List Arg) : Nat := (args.takeWhile fun a => !isOption a).length

def defineOrdering (posixlyCorrect : Bool) (optstring : List UInt8) : Ordering × List UInt8 :=
  if optstring.getD 0 0 = dash then (.returnInOrder,optstring.tail)
  else if optstring.getD 0 0 = plus then (.requireOrder,optstring.tail)
  else (if posixlyCorrect then .requireOrder else .permute,optstring)

def initialColon (shortopts : List UInt8) : Bool × List UInt8 :=
  if shortopts.getD 0 0 = colon then (true,shortopts.tail) else (false,shortopts)

def hasArg (cp : List UInt8) : HasArg :=
  if cp.getD 1 0 = colon then if cp.getD 2 0 = colon then .optional else .required else .none

def skipEquals (arg : Arg) : Arg := if arg.getD 0 0 = equals then arg.tail else arg

def finish (ordering : Ordering) (argNext : Nat) (argv : List Arg) (d : Data) : Call :=
  if ordering = .permute ∧ d.optwhere = 1 ∧ d.numNonopts ≠ 0 then
    ⟨d.optopt,{ d with optind := d.permuteFrom + 1 + argNext },
      permute argv d.permuteFrom d.numNonopts (1 + argNext),[]⟩
  else if d.optwhere = 1 then ⟨d.optopt,{ d with optind := d.optind + 1 + argNext },argv,[]⟩
  else ⟨d.optopt,d,argv,[]⟩

def unknownOption (arg : Arg) (argv : List Arg) (d : Data) : Call :=
  let errors := if d.opterr then argv.getD 0 [] ++ invalidOption ++ [arg.getD d.optwhere 0] ++ closing else []
  let d := { d with optwhere := d.optwhere + 1 }
  let d := if arg.getD d.optwhere 0 = 0 then { d with optind := d.optind + 1, optwhere := 1 } else d
  ⟨question.toNat,{ d with optopt := question.toNat },argv,errors⟩

def takeArgument (schar : Bool) (ordering : Ordering) (startsColon : Bool) (cp arg : List UInt8) (argv : List Arg)
    (d : Data) : Call :=
  let possibleArg := arg.drop (d.optwhere + 1)
  let d := { d with optopt := charValue schar (cp.getD 0 0) }
  match hasArg cp with
  | .optional =>
    let possibleArg := skipEquals possibleArg
    finish ordering 0 argv { d with optarg := if possibleArg ≠ [] then some possibleArg else none, optwhere := 1 }
  | .required =>
    let possibleArg := skipEquals possibleArg
    if possibleArg ≠ [] then finish ordering 0 argv { d with optarg := some possibleArg, optwhere := 1 }
    else if argv.length ≤ d.optind + 1 then
      ⟨if startsColon then colon.toNat else question.toNat,{ d with optind := d.optind + 1 },argv,
        if d.opterr then argv.getD 0 [] ++ argumentRequired ++ [cp.getD 0 0] ++ closing else []⟩
    else finish ordering 1 argv { d with optarg := argv[d.optind + 1]?, optwhere := 1 }
  | .none =>
    let d := { d with optwhere := d.optwhere + 1 }
    let d := if arg.getD d.optwhere 0 = 0 then { d with optwhere := 1 } else d
    finish ordering 0 argv { d with optarg := none }

def parseOption (schar : Bool) (ordering : Ordering) (startsColon : Bool) (shortopts : List UInt8) (argv : List Arg)
    (d : Data) : Option Call :=
  match argv[d.optind]? with
  | none => some ⟨eof,d,argv,[]⟩
  | some arg =>
    match strchr (arg.getD d.optwhere 0) shortopts with
    | none => some (unknownOption arg argv d)
    | some [] => none
    | some cp => some (takeArgument schar ordering startsColon cp arg argv d)

def getopt (schar posixlyCorrect : Bool) (optstring : List UInt8) (argv : List Arg) (d : Data) : Option Call :=
  let d := if d.optind = 0 then { d with optind := 1, optwhere := 1, permuteFrom := 0, numNonopts := 0 } else d
  match argv[d.optind]? with
  | none => some ⟨eof,d,argv,[]⟩
  | some arg =>
    if arg = endMarker then some ⟨eof,{ d with optind := d.optind + 1 },argv,[]⟩ else
    let (ordering,shortopts) := defineOrdering posixlyCorrect optstring
    let (startsColon,shortopts) := initialColon shortopts
    if d.optwhere = 1 then
      match ordering with
      | .permute =>
        let num := nonopts (argv.drop d.optind)
        let d := { d with permuteFrom := d.optind, numNonopts := num, optind := d.optind + num }
        match argv[d.optind]? with
        | none => some ⟨eof,{ d with optind := d.permuteFrom },argv,[]⟩
        | some arg =>
          if arg = endMarker then
            some ⟨eof,{ d with optind := d.permuteFrom + 1 },permute argv d.permuteFrom d.numNonopts 1,[]⟩
          else parseOption schar ordering startsColon shortopts argv d
      | .returnInOrder =>
        if isOption arg = false then some ⟨1,{ d with optarg := some arg, optind := d.optind + 1, optopt := 1 },argv,[]⟩
        else parseOption schar ordering startsColon shortopts argv d
      | .requireOrder =>
        if isOption arg = false then some ⟨eof,d,argv,[]⟩
        else parseOption schar ordering startsColon shortopts argv d
    else parseOption schar ordering startsColon shortopts argv d

def getoptRun (schar posixlyCorrect : Bool) (optstring : List UInt8) :
    Nat → List Arg → Data → Option (List Arg × Data)
  | 0, _, _ => none
  | fuel + 1, argv, d => do
    let r ← getopt schar posixlyCorrect optstring argv d
    if r.ret = eof then pure (r.argv,r.data) else getoptRun schar posixlyCorrect optstring fuel r.argv r.data

end Getopt
