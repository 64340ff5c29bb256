import Lwrt.Applet.Mtd

/-! The firmware upgrade: check the image, keep a copy of the configuration, write the image and
reboot into it. -/

namespace Lwrt.Sysupgrade

open Library Mtd

def defaultPart : Text :=
  "firmware".toList

def config : Text :=
  "/etc/lwrt/config".toList

def backup : Text :=
  "/etc/lwrt/config.bak".toList

structure Opts where
  keepConfig : Bool
  testOnly : Bool
  part : Text
  image : Option Text
deriving DecidableEq

/-- The loop of `parse`, after the options that have made up `o`. -/
def parseFrom (o : Opts) : List Text → Except Text Opts
  | [] => .ok o
  | arg :: args =>
      if arg = "-n".toList then parseFrom { o with keepConfig := false } args
      else if arg = "-T".toList ∨ arg = "--test".toList then
        parseFrom { o with testOnly := true } args
      else if arg = "-p".toList then
        match args with
        | [] => .error "-p needs a partition name".toList
        | part :: args => parseFrom { o with part := part } args
      else if arg.head? = some '-' then
        .error ("unknown option '".toList ++ arg ++ "'".toList)
      else parseFrom { o with image := some arg } args

def parse (args : List Text) : Except Text Opts :=
  parseFrom ⟨true, false, defaultPart, none⟩ args

/-- The image is a regular file that is not empty, and the partition has a device: its size. -/
def validate (host : Host) (w : World) (o : Opts) : Except Text ℕ :=
  match o.image with
  | none => .error "no image given".toList
  | some img =>
      match w.regular host.cwd img with
      | none =>
          if (w.device host.cwd img).isSome ∨ w.fs.dirs (Path.resolve host.cwd img) then
            .error (img ++ " is not a regular file".toList)
          else .error (img ++ ": No such file or directory (os error 2)".toList)
      | some bytes =>
          if bytes = [] then .error (img ++ " is empty".toList)
          else
            match resolve w.fs o.part with
            | .error e => .error ("partition ".toList ++ o.part ++ ": ".toList ++ e)
            | .ok _ => .ok bytes.length

/-- `fs::copy` of the configuration, if there is one. -/
def backupConfig (host : Host) (w : World) : World :=
  match w.regular host.cwd config with
  | none => w
  | some bytes => { w with fs := w.fs.write host.backup (Path.resolve host.cwd backup) bytes }

def run (host : Host) (w : World) (args : List Text) : Except Stop (ℕ × World) :=
  match parse args with
  | .error _ => .ok (2, w)
  | .ok opts =>
      match validate host w opts with
      | .error _ => .ok (1, w)
      | .ok _ =>
          if opts.testOnly then .ok (0, w)
          else
            let w := if opts.keepConfig then backupConfig host w else w
            match opts.image with
            | none => .error .unwrapped
            | some img => do
                let (rc, w) ← Mtd.write host w img opts.part
                if rc ≠ 0 then .ok (rc, w) else .ok (0, { w with reboots := w.reboots + 1 })

end Lwrt.Sysupgrade
