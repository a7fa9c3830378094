import ProGuide.Lib.Text
import ProGuide.Lib.SreParse
/-!
# The local word book

`saveword.py` of the youdao workflow: `SaveWord.generateWordBook`, `saveLocal`
and `save`, and the item its main block builds. A Python 2 byte string is a list
of characters.
-/
open ProGuide.Lib ProGuide.Lib.Text

namespace ProGuide.Youdao

abbrev Str := List Char

/-- The exceptions the script can meet. -/
inductive PyExc where
  | re (e : SreParse.Error)
  | typeError
  | indexError
  | ioError
  | urlError
  deriving DecidableEq, Repr

/-- A dictionary, its entries in the order Python iterates over them. -/
abbrev Dict := List (Str × Str)

/-! ## The new text -/

def fieldValue (f : Str × Str) : Str :=
  if f.1 ∈ ["trans".toList, "phonetic".toList] then "<![CDATA[".toList ++ f.2 ++ "]]>".toList else f.2

/-- One field of an item. -/
def fieldXml (f : Str × Str) : Str :=
  "<".toList ++ f.1 ++ ">".toList ++ fieldValue f ++ "</".toList ++ f.1 ++ ">\n".toList

def itemOpen : Str := "<item>".toList

def itemClose : Str := "</item>\n".toList

def itemXml (item : Dict) : Str := itemOpen ++ item.flatMap fieldXml ++ itemClose

def patternHead : Str := "<item>(?:(?!<\\/item>)[\\s\\S])*<word>".toList

def patternTail : Str := "<\\/word>[\\s\\S]*?<\\/item>\n".toList

/-- The pattern of the stored items of a word, the word spliced in as it is. -/
def wordPattern (w : Str) : Str := patternHead ++ w ++ patternTail

def bookOpen : Str := "<wordbook>\n".toList

def bookClose : Str := "</wordbook>".toList

def wordKey : Str := "word".toList

def generateWordBook (item : Dict) (source_xml : Str) : Except PyExc Str :=
  match item.lookup wordKey with
  | none => .error .typeError
  | some w =>
    match SreParse.sub (wordPattern w) [] source_xml with
    | .error e => .error (.re e)
    | .ok source_xml =>
      let source_xml :=
        if contains bookClose source_xml then replaceAll bookClose [] source_xml ++ itemXml item
        else bookOpen ++ itemXml item
      .ok (source_xml ++ bookClose)

/-! ## Saving -/

/-- The word book on disk: its content, if it exists, whether it can be opened and
read, whether it can be opened for writing, and where `write` or `close` fails then:
after how many characters have got to the file. -/
structure Disk where
  file : Option Str
  readable : Bool
  writable : Bool
  failsAt : Option Nat
  deriving DecidableEq, Repr

/-- The text `saveLocal` reads: nothing when there is no file. -/
def Disk.text (d : Disk) : Str := d.file.getD []

/-- `f.write` and `f.close` on the file just emptied: the exception, if one fails. -/
def writeOut (xml : Str) (d : Disk) : Option PyExc × Disk :=
  match d.failsAt with
  | some n => (some .ioError, { d with file := some (xml.take n) })
  | none => (none, { d with file := some xml })

/-- `SaveWord.saveLocal`: the exception it returns, or none for `0`. Opening the
file for writing empties it before the new text is computed. -/
def saveLocal (item : Dict) (d : Disk) : Option PyExc × Disk :=
  if d.file.isSome && !d.readable then (some .ioError, d)
  else if !d.writable then (some .ioError, d)
  else match generateWordBook item d.text with
    | .error e => (some e, { d with file := some [] })
    | .ok xml => writeOut xml d

/-- The three network calls of `save`, each with its answer or its exception. -/
structure Net where
  syncToYoudao : Except PyExc Bool
  loginToYoudao : Except PyExc Bool
  syncAgain : Except PyExc Bool

def onlineMessage : Str := "成功保存至线上单词本".toList

def localMessage : Str := "帐号出错，临时保存至本地单词本".toList

/-- `self.syncToYoudao() or (self.loginToYoudao() and self.syncToYoudao())`. -/
def Net.online (net : Net) : Except PyExc Bool := do
  if ← net.syncToYoudao then return true
  else if ← net.loginToYoudao then net.syncAgain
  else return false

/-- `SaveWord.save`: what it prints, and the disk it leaves. -/
def save (net : Net) (item : Dict) (d : Disk) : Except PyExc (Str × Disk) := do
  if ← net.online then return (onlineMessage, d)
  else
    let (_result, d) := saveLocal item d
    return (localMessage, d)

/-! ## The item of the main block -/

def mainItem (query result : Str) : Dict :=
  [(wordKey, query), ("trans".toList, result), ("tags".toList, "Alfred".toList),
    ("progress".toList, "-1".toList)]

/-- A word with its translation, its fields in some dictionary order. -/
structure Save where
  word : Str
  trans : Str
  fields : Dict
  emitted : fields.Perm (mainItem word trans)

/-- `save`s one after the other, from the text of the file. -/
def saveAll : List Save → Str → Except PyExc Str
  | [], xml => .ok xml
  | s :: ss, xml => do saveAll ss (← generateWordBook s.fields xml)

end ProGuide.Youdao
