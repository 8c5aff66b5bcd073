import CleanCopy.Files.Disk
import CleanCopy.Settings.Read

namespace CleanCopy.Disk

def settingsOf (d : Disk) (file : Path) : Except Failure Settings :=
  (d.read file).bind Settings.parse

def settingsReach : Nat := 11

/-- The directories in which settings for one are looked for: itself and those above it, without
links where it is there. -/
def settingsDirs (d : Disk) (start : Path) : List Path :=
  ((d.canonical? start).getD start).ancestors settingsReach

/-- The settings in the nearest directory that has a file of them without a fault. -/
def nearestSettings (d : Disk) (start : Path) : Settings :=
  ((d.settingsDirs start).findSome? fun dir =>
    (d.settingsOf (dir.join ⟨settingsFileName⟩)).toOption).getD {}

def writeTemplate (dir : Path) (d : Disk) : Disk × Except Failure Unit :=
  d.write (dir.join ⟨settingsFileName⟩) settingsTemplate.toList

end CleanCopy.Disk
