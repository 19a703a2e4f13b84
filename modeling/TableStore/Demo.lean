import TableStore.Migration

/-!
# Demo tables

- a new store can be filled with four small tables about the employees of a company and their projects; `fill` does
  that in the upgrade that creates the store, so a store never holds a part of them.
-/

namespace TableStore.Demo

/-- The tables, in the order in which they are created. -/
def tables : List Table := [
  ⟨"employees", [⟨"employee_id", .integer⟩, ⟨"first_name", .text⟩, ⟨"last_name", .text⟩, ⟨"email", .text⟩,
    ⟨"hire_date", .date⟩, ⟨"department_id", .integer⟩, ⟨"salary", .real⟩]⟩,
  ⟨"departments", [⟨"department_id", .integer⟩, ⟨"department_name", .text⟩]⟩,
  ⟨"projects", [⟨"project_id", .integer⟩, ⟨"project_name", .text⟩, ⟨"start_date", .date⟩, ⟨"end_date", .date⟩]⟩,
  ⟨"project_assignments", [⟨"assignment_id", .integer⟩, ⟨"project_id", .integer⟩, ⟨"employee_id", .integer⟩]⟩]

/-- An employee. -/
def employee (id : Int64) (first last email hired : String) (department salary : Int64) : Record :=
  .ofList [("employee_id", .integer id), ("first_name", .text first), ("last_name", .text last),
    ("email", .text email), ("hire_date", .text hired), ("department_id", .integer department),
    ("salary", .integer salary)]

/-- A department. -/
def department (id : Int64) (name : String) : Record :=
  .ofList [("department_id", .integer id), ("department_name", .text name)]

/-- The rows of the employees. -/
def employees : List Record := [
  employee 101 "John" "Doe" "john.doe@example.com" "2022-01-15" 2 75000,
  employee 102 "Jane" "Smith" "jane.smith@example.com" "2021-03-20" 1 82000,
  employee 103 "Peter" "Jones" "peter.jones@example.com" "2022-05-10" 2 68000]

/-- The rows of the departments. -/
def departments : List Record := [department 1 "Engineering", department 2 "Marketing"]

/-- Creates the tables and puts the rows into them. -/
def fill : Attempt Upgrade Unit := do
  Migration.runAll (tables.map .create)
  Migration.putAll "employees" employees
  Migration.putAll "departments" departments

end TableStore.Demo
